import BinaryLayout.Format
import BinaryLayout.Proofs.Layout.Reads
import Mathlib.Tactic.Ring

/-!
# What the two limits decide

The depth is checked at each opening bracket, between other checks, and the values are counted when
the whole text has been read.  This module says what a change of the limits can change.

There are four groups.

* The rules under another limit.  `parseFrom_of_reads` says that the reader accepts what the rules
  allow, and `Reads.of_depth_le` that a layout is read under every limit that its groups keep to.
* Refusals.  `Refuses` lists the errors that a text can have under a limit, and
  `tooDeep_or_eq_of_le` compares two limits: the smaller one is passed, or it makes no difference.
* Whole texts.  The same for `Layout.parse`, which starts outside of all groups.
* Formats.  `ofText_under_limits` is the whole account for a text and all pairs of limits.
-/

namespace BinaryLayout

/-! ## The rules under another limit -/

namespace Layout

variable {limit : Nat} {within : Option GroupKind} {depth : Nat} {text left : List Char}
  {layout : Layout}

/-- What the rules allow is what the reader accepts. -/
theorem parseFrom_of_reads (h : Reads limit within depth text layout left) :
    parseFrom limit within depth text = .ok (layout, left) := by
  induction h with
  | @ended _ text next =>
    have hnext : Token.next? (none == some GroupKind.record) text = .ok none := next
    rw [parseFrom_eq, hnext]
  | field next code _ ih =>
    rw [parseFrom_eq, next]
    simp only [code, ih]
    rfl
  | group next code repeats room _ _ ihBody ihTail =>
    rw [parseFrom_eq, next]
    simp only [code, repeats, Nat.not_le.2 room, if_false, ihBody, bind, Except.bind, ihTail]
  | closed next code =>
    rw [parseFrom_eq, next]
    simp only [code]
    rfl
  | skipped next code _ ih =>
    rw [parseFrom_eq, next]
    rcases code with code | ⟨code, rfl⟩
    · simp only [code]
      exact ih
    · simp only [code]
      exact ih

/-- The groups of a layout that was read keep to the limit. -/
theorem Reads.depth_le (h : Reads limit within depth text layout left) (hdepth : depth ≤ limit) :
    depth + layout.depth ≤ limit := by
  induction h with
  | ended | closed => exact hdepth
  | field _ _ _ ih => exact ih hdepth
  | group _ _ _ room _ _ ihBody ihTail =>
    have hbody := ihBody room
    have htail := ihTail hdepth
    rw [Layout.depth]
    omega
  | skipped _ _ _ ih => exact ih hdepth

/-- A layout is read from its text under every limit that its groups keep to. -/
theorem Reads.of_depth_le (h : Reads limit within depth text layout left) {other : Nat}
    (hdepth : depth + layout.depth ≤ other) : Reads other within depth text layout left := by
  induction h with
  | ended next => exact .ended next
  | field next code _ ih => exact .field next code (ih hdepth)
  | group next code repeats _ _ _ ihBody ihTail =>
    rw [Layout.depth] at hdepth
    exact .group next code repeats (by omega) (ihBody (by omega)) (ihTail (by omega))
  | closed next code => exact .closed next code
  | skipped next code _ ih => exact .skipped next code (ih hdepth)

end Layout

/-! ## Refusals -/

/-- The errors that a text can have when it is read under this limit. -/
def FormatError.Refuses (limit : Nat) : FormatError → Prop
  | .unterminatedGroup _ | .zeroRepeat _ | .unterminatedName _ => True
  | .tooDeep passed => passed = limit
  | .tooManyValues _ | .unsupported _ => False

/-- A token fails only for a field name without a colon. -/
theorem Token.eq_unterminatedName_of_next? {inRecord : Bool} {text : List Char} {e : FormatError}
    (h : next? inRecord text = .error e) : ∃ preview, e = .unterminatedName preview := by
  unfold next? at h
  split at h
  · split at h
    · next failure hname =>
      cases h
      unfold FieldName.next? at hname
      repeat' split at hname
      all_goals cases hname
      exact ⟨_, rfl⟩
    · cases h
    · cases h
  · cases h

namespace Layout

/-- Reading a text fails only for what reading can fail for. -/
theorem refuses_of_parseFrom {limit : Nat} {within : Option GroupKind} {depth : Nat}
    {text : List Char} {e : FormatError} (h : parseFrom limit within depth text = .error e) :
    e.Refuses limit := by
  rw [parseFrom_eq] at h
  split at h
  · next hn =>
    cases h
    obtain ⟨preview, rfl⟩ := Token.eq_unterminatedName_of_next? hn
    trivial
  · cases within <;> cases h
    trivial
  · next token rest hn =>
    have hr : rest.length < text.length := Token.length_of_next? hn
    split at h
    · rcases bind_eq_error.1 h with hp | ⟨_, _, h⟩
      · exact refuses_of_parseFrom hp
      · cases h
    · split at h
      · cases h
        trivial
      split at h
      · cases h
        rfl
      rcases bind_eq_error.1 h with hb | ⟨⟨body, behind⟩, hb, h⟩
      · exact refuses_of_parseFrom hb
      have hbehind : behind.length ≤ rest.length := length_le_of_parseFrom hb
      rcases bind_eq_error.1 h with hm | ⟨_, _, h⟩
      · exact refuses_of_parseFrom hm
      · cases h
    · split at h
      · cases h
      · exact refuses_of_parseFrom h
    · exact refuses_of_parseFrom h
termination_by text.length

/-- A smaller limit is passed or makes no difference. -/
theorem tooDeep_or_eq_of_le {limit more : Nat} (hle : limit ≤ more) (within : Option GroupKind)
    (depth : Nat) (text : List Char) :
    parseFrom limit within depth text = .error (.tooDeep limit) ∨
      parseFrom limit within depth text = parseFrom more within depth text := by
  rw [parseFrom_eq limit, parseFrom_eq more]
  cases hn : Token.next? (within == some .record) text with
  | error e => exact .inr rfl
  | ok next =>
    match next, hn with
    | none, _ => exact .inr rfl
    | some (token, rest), hn =>
      have hr : rest.length < text.length := Token.length_of_next? hn
      dsimp only
      cases token.code with
      | field f =>
        rcases tooDeep_or_eq_of_le hle within depth rest with h | h
        · rw [h]
          exact .inl rfl
        · rw [h]
          exact .inr rfl
      | opening kind =>
        dsimp only
        split
        · exact .inr rfl
        split
        · exact .inl rfl
        rw [if_neg (by omega)]
        rcases tooDeep_or_eq_of_le hle (some kind) (depth + 1) rest with h | h
        · rw [h]
          exact .inl rfl
        rw [h]
        cases hb : parseFrom more (some kind) (depth + 1) rest with
        | error e => exact .inr rfl
        | ok parsed =>
          obtain ⟨body, behind⟩ := parsed
          have hbehind : behind.length ≤ rest.length := length_le_of_parseFrom hb
          simp only [bind, Except.bind]
          rcases tooDeep_or_eq_of_le hle within depth behind with h | h
          · rw [h]
            exact .inl rfl
          · rw [h]
            exact .inr rfl
      | closing =>
        dsimp only
        split
        · exact .inr rfl
        · exact tooDeep_or_eq_of_le hle within depth rest
      | blank => exact tooDeep_or_eq_of_le hle within depth rest
termination_by text.length

/-! ## Whole texts -/

section

variable {limit more : Nat} {text : List Char} {layout : Layout}

/-- A text that is read under one limit is read under every limit that its groups keep to. -/
theorem parse_of_depth_le (h : parse limit text = .ok layout) (hdepth : layout.depth ≤ more) :
    parse more text = .ok layout := by
  obtain ⟨left, hreads⟩ := reads_of_parse h
  have hkept : 0 + layout.depth ≤ more := by omega
  have hmore := parseFrom_of_reads (hreads.of_depth_le hkept)
  rw [parse, hmore]
  rfl

theorem depth_le_of_parse (h : parse limit text = .ok layout) : layout.depth ≤ limit := by
  obtain ⟨left, hreads⟩ := reads_of_parse h
  have hdepth := hreads.depth_le (Nat.zero_le limit)
  omega

theorem parse_tooDeep_or_eq_of_le (hle : limit ≤ more) (text : List Char) :
    parse limit text = .error (.tooDeep limit) ∨ parse limit text = parse more text := by
  rcases tooDeep_or_eq_of_le hle none 0 text with h | h
  · rw [parse, h]
    exact .inl rfl
  · rw [parse, h]
    exact .inr rfl

theorem refuses_of_parse {e : FormatError} (h : parse limit text = .error e) : e.Refuses limit := by
  rcases bind_eq_error.1 h with hp | ⟨_, _, h⟩
  · exact refuses_of_parseFrom hp
  · cases h

end

end Layout

namespace Format

/-! ## Formats -/

/-- A text is read first, and then its values are counted. -/
theorem ofText_eq (limits : Limits) (source : String) :
    ofText limits source =
      match Layout.parse limits.depth.toNat source.toList with
      | .error e => .error e
      | .ok layout =>
        if limits.values.toNat < layout.yield then .error (.tooManyValues limits.values.toNat)
        else .ok ⟨source, layout⟩ := by
  unfold ofText
  cases Layout.parse limits.depth.toNat source.toList <;> rfl

/-- An error of reading comes from the reading. -/
theorem ofText_eq_error_iff {limits : Limits} {source : String} {e : FormatError} {limit : Nat}
    (he : e.Refuses limit) :
    ofText limits source = .error e ↔
      Layout.parse limits.depth.toNat source.toList = .error e := by
  rw [ofText_eq]
  cases Layout.parse limits.depth.toNat source.toList with
  | error failure => simp
  | ok layout =>
    dsimp only
    split
    · simp only [Except.error.injEq, reduceCtorEq, iff_false]
      rintro rfl
      exact he
    · simp

/-- Under the greatest limits a text is refused only in reading it. -/
theorem refuses_of_ofText_greatest {source : String} {e : FormatError}
    (h : ofText .greatest source = .error e) : e.Refuses Limits.greatest.depth.toNat := by
  rw [ofText_eq] at h
  split at h
  · next hparse =>
    cases h
    exact Layout.refuses_of_parse hparse
  · next layout _ =>
    have hyield : layout.yield ≤ Limits.greatest.values.toNat := layout.yield_le_greatest
    rw [if_neg (by omega)] at h
    cases h

theorem depth_le_greatest (limits : Limits) :
    limits.depth.toNat ≤ Limits.greatest.depth.toNat := by
  have hlt := limits.depth.toNat_lt
  have hgreatest : Limits.greatest.depth.toNat = 2 ^ 64 - 1 := by decide
  omega

/-- A text that reads under the greatest limits is refused under others for its depth, or else for
its values, or not at all. -/
theorem ofText_of_greatest_ok {source : String} {format : Format}
    (h : ofText .greatest source = .ok format) (limits : Limits) :
    ofText limits source =
      if limits.depth.toNat < format.layout.depth then .error (.tooDeep limits.depth.toNat)
      else if limits.values.toNat < format.layout.yield then
        .error (.tooManyValues limits.values.toNat)
      else .ok format := by
  obtain ⟨hparse, -, rfl⟩ := ofText_eq_ok_iff.1 h
  by_cases hdepth : limits.depth.toNat < format.layout.depth
  · have hdeep : Layout.parse limits.depth.toNat format.source.toList =
        .error (.tooDeep limits.depth.toNat) := by
      rcases Layout.parse_tooDeep_or_eq_of_le (depth_le_greatest limits) format.source.toList
        with hdeep | hsame
      · exact hdeep
      · have hle := Layout.depth_le_of_parse (hsame.trans hparse)
        omega
    rw [if_pos hdepth, ofText_eq, hdeep]
  · rw [if_neg hdepth, ofText_eq, Layout.parse_of_depth_le hparse (Nat.not_lt.1 hdepth)]

/-- A text that is refused under the greatest limits is refused under others for the same reason or
for its depth. -/
theorem ofText_of_greatest_error {source : String} {e : FormatError}
    (h : ofText .greatest source = .error e) (limits : Limits) :
    ofText limits source = .error e ∨
      ofText limits source = .error (.tooDeep limits.depth.toNat) := by
  have he := refuses_of_ofText_greatest h
  have hdeep : (FormatError.tooDeep limits.depth.toNat).Refuses limits.depth.toNat := rfl
  rw [ofText_eq_error_iff he, ofText_eq_error_iff hdeep, ← (ofText_eq_error_iff he).1 h]
  exact (Layout.parse_tooDeep_or_eq_of_le (depth_le_greatest limits) source.toList).symm

/-- The reason for which a text is refused under the greatest limits stays when the depth is
raised. -/
theorem ofText_error_of_depth_le {source : String} {e : FormatError}
    (h : ofText .greatest source = .error e) {limits more : Limits}
    (hle : limits.depth ≤ more.depth) (hlimits : ofText limits source = .error e) :
    ofText more source = .error e := by
  have he := refuses_of_ofText_greatest h
  have hdepth : limits.depth.toNat ≤ more.depth.toNat := hle
  rw [ofText_eq_error_iff he] at h hlimits ⊢
  rcases Layout.parse_tooDeep_or_eq_of_le hdepth source.toList with hdeep | hsame
  · -- The smaller limit is the reason under the greatest limit too, so it is the greatest.
    rw [hdeep] at hlimits
    cases hlimits
    have hgreatest : limits.depth.toNat = Limits.greatest.depth.toNat := he
    have hmore := depth_le_greatest more
    rw [show more.depth.toNat = Limits.greatest.depth.toNat by omega]
    exact h
  · rw [← hsame]
    exact hlimits

/-- A text that reads under the greatest limits reads under all limits that its groups and its
values keep to, and is refused under all others, for its depth first.  A text that is refused under
the greatest limits is refused under all others, for the same reason or for its depth, and never for
its values; where it is refused for the same reason it stays so when the depth is raised. -/
theorem ofText_under_limits (source : String) :
    (∀ format, ofText .greatest source = .ok format → ∀ limits : Limits,
        ofText limits source =
          if limits.depth.toNat < format.layout.depth then .error (.tooDeep limits.depth.toNat)
          else if limits.values.toNat < format.layout.yield then
            .error (.tooManyValues limits.values.toNat)
          else .ok format) ∧
      ∀ e, ofText .greatest source = .error e →
        (∀ limits : Limits,
          (ofText limits source = .error e ∨
            ofText limits source = .error (.tooDeep limits.depth.toNat)) ∧
          ∀ values, ofText limits source ≠ .error (.tooManyValues values)) ∧
        ∀ limits more : Limits, limits.depth ≤ more.depth →
          ofText limits source = .error e → ofText more source = .error e := by
  refine ⟨fun format h => ofText_of_greatest_ok h, fun e h => ⟨fun limits => ?_, ?_⟩⟩
  · have hrefused := ofText_of_greatest_error h limits
    refine ⟨hrefused, fun values hvalues => ?_⟩
    rw [hvalues] at hrefused
    rcases hrefused with hsame | hdeep
    · cases hsame
      exact refuses_of_ofText_greatest h
    · cases hdeep
  · intro limits more hle hlimits
    exact ofText_error_of_depth_le h hle hlimits

theorem ofText_greatest_nested :
    ofText .greatest "[{a:C}]" = .ok ⟨"[{a:C}]", .group none .array 1 (.group none .record 1
      (.field (some "a") (.number (.byte .unsigned)) 1 .done) .done) .done⟩ := by
  decide +kernel

theorem ofText_greatest_zero_repeat :
    ofText .greatest "[[0]]" = .error (.zeroRepeat .array) := by
  decide +kernel

/-- Two groups with three values, and a text that is refused at its second bracket. -/
theorem ofText_nested_under_limits :
    ofText ⟨1, 2⟩ "[{a:C}]" = .error (.tooDeep 1) ∧
      ofText ⟨2, 2⟩ "[{a:C}]" = .error (.tooManyValues 2) ∧
      (ofText ⟨2, 3⟩ "[{a:C}]").isOk ∧
      (ofText ⟨1, 0⟩ "[[0]]" = .error (.zeroRepeat .array) →
        ofText ⟨9, 9⟩ "[[0]]" = .error (.zeroRepeat .array)) := by
  obtain ⟨hread, _⟩ := ofText_under_limits "[{a:C}]"
  obtain ⟨_, hrefused⟩ := ofText_under_limits "[[0]]"
  obtain ⟨_, hraised⟩ := hrefused _ ofText_greatest_zero_repeat
  have hlimits := hread _ ofText_greatest_nested
  refine ⟨hlimits ⟨1, 2⟩, hlimits ⟨2, 2⟩, ?_, hraised ⟨1, 0⟩ ⟨9, 9⟩ (by decide)⟩
  rw [hlimits ⟨2, 3⟩]
  rfl

end Format

end BinaryLayout
