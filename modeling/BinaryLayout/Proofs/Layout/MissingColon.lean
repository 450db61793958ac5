import BinaryLayout.Proofs.Layout.Closings
import BinaryLayout.Proofs.Layout.Limits
import BinaryLayout.Proofs.Layout.Scan

/-!
# Field names without a colon

Inside a record a name has to end at a colon.  If a closing brace or the end of the text comes
first, the text is refused, and the error shows the text from the first letter of that name on.
Backslashes count on both sides of that letter: an escaped letter begins no name, and an escaped
colon or brace ends none.

There are three groups.

* Escapes.  `FieldName.escapes` says which characters are escaped, and `FieldName.Shows` that a text
  has one of some characters unescaped.
* Names.  `FieldName.StandsNext` and `FieldName.LacksColon` say without the reader where the next
  name begins and that no colon ends it; `FieldName.next?_eq_error_iff` says that the reader fails
  exactly there.
* Formats.  `Format.ExpectsName` is the place that reading has come to, and
  `Format.unterminatedName_iff_lacksColon` puts the two together.
-/

namespace BinaryLayout

namespace FieldName

/-! ## Escapes -/

/-- Whether the character behind these is escaped: right before it stands a backslash that is not
escaped itself. -/
def escapes (front : List Char) : Bool :=
  front.foldl (fun escaped c => !escaped && c == '\\') false

/-- So it is with one more character in front of the one that is asked about. -/
theorem escapes_concat (front : List Char) (c : Char) :
    escapes (front ++ [c]) = (!escapes front && c == '\\') := by
  rw [escapes, List.foldl_append]
  rfl

/-- A plain character in front changes nothing. -/
theorem escapes_cons {c : Char} (h : c ≠ '\\') (front : List Char) :
    escapes (c :: front) = escapes front := by
  rw [escapes, List.foldl_cons, beq_false_of_ne h]
  rfl

/-- One of these characters stands unescaped in a text. -/
def Shows (stop : Char → Bool) (text : List Char) : Prop :=
  ∃ front c rest, text = front ++ c :: rest ∧ stop c = true ∧ escapes front = false

variable {stop : Char → Bool}

theorem not_shows_nil : ¬Shows stop [] := by
  rintro ⟨front, c, rest, htext, _⟩
  exact List.append_ne_nil_of_right_ne_nil front (List.cons_ne_nil c rest) htext.symm

theorem shows_cons {c : Char} (h : c ≠ '\\') (text : List Char) :
    Shows stop (c :: text) ↔ stop c = true ∨ Shows stop text := by
  constructor
  · rintro ⟨front, d, rest, htext, hstop, hescapes⟩
    rcases List.cons_eq_append_iff.1 htext with ⟨rfl, hhead⟩ | ⟨before, rfl, rfl⟩
    · cases hhead
      exact .inl hstop
    · rw [escapes_cons h] at hescapes
      exact .inr ⟨before, d, rest, rfl, hstop, hescapes⟩
  · rintro (hstop | ⟨front, d, rest, rfl, hstop, hescapes⟩)
    · exact ⟨[], c, text, rfl, hstop, rfl⟩
    · exact ⟨c :: front, d, rest, rfl, hstop, (escapes_cons h front).trans hescapes⟩

/-- A place that is not escaped is not the one behind a first backslash. -/
theorem slash_eq_append_iff {d c : Char} {text front rest : List Char} (hc : c ≠ '\\')
    (hescapes : escapes front = false) :
    '\\' :: d :: text = front ++ c :: rest ↔
      ∃ before, front = '\\' :: d :: before ∧ text = before ++ c :: rest ∧
        escapes before = false := by
  constructor
  · intro htext
    rcases List.cons_eq_append_iff.1 htext with ⟨rfl, hhead⟩ | ⟨behind, rfl, hbehind⟩
    · cases hhead
      exact absurd rfl hc
    rcases List.cons_eq_append_iff.1 hbehind with ⟨rfl, _⟩ | ⟨before, rfl, rfl⟩
    · cases hescapes
    · exact ⟨before, rfl, rfl, hescapes⟩
  · rintro ⟨before, rfl, rfl, _⟩
    rfl

theorem ne_slash_of_stop (hslash : stop '\\' = false) {c : Char} (hc : stop c = true) :
    c ≠ '\\' := by
  rintro rfl
  exact absurd hc (Bool.eq_false_iff.1 hslash)

theorem shows_slash (hslash : stop '\\' = false) (d : Char) (text : List Char) :
    Shows stop ('\\' :: d :: text) ↔ Shows stop text := by
  constructor
  · rintro ⟨front, c, rest, htext, hstop, hescapes⟩
    have hc := ne_slash_of_stop hslash hstop
    obtain ⟨before, _, rfl, hbefore⟩ := (slash_eq_append_iff hc hescapes).1 htext
    exact ⟨before, c, rest, rfl, hstop, hbefore⟩
  · rintro ⟨front, c, rest, rfl, hstop, hescapes⟩
    exact ⟨'\\' :: d :: front, c, rest, rfl, hstop, hescapes⟩

/-- The text from its first unescaped character of these on. -/
def Finds (stop : Char → Bool) (text rest : List Char) : Prop :=
  ∃ front, text = front ++ rest ∧ rest.head?.any stop = true ∧ escapes front = false ∧
    ¬Shows stop front

theorem not_finds_nil (rest : List Char) : ¬Finds stop [] rest := by
  rintro ⟨front, htext, hstop, _⟩
  obtain ⟨_, rfl⟩ := List.append_eq_nil_iff.1 htext.symm
  cases hstop

/-- A character that is looked for is found where it stands. -/
theorem finds_of_stop {c : Char} (hc : stop c = true) {text rest : List Char} :
    Finds stop (c :: text) rest ↔ rest = c :: text := by
  constructor
  · rintro ⟨front, htext, _, _, hfront⟩
    rcases List.cons_eq_append_iff.1 htext with ⟨rfl, hrest⟩ | ⟨before, rfl, _⟩
    · exact hrest
    · exact absurd ⟨[], c, before, rfl, hc, rfl⟩ hfront
  · rintro rfl
    exact ⟨[], rfl, hc, rfl, not_shows_nil⟩

/-- Another one is passed over. -/
theorem finds_cons {c : Char} (hslash : c ≠ '\\') (hc : stop c = false) {text rest : List Char} :
    Finds stop (c :: text) rest ↔ Finds stop text rest := by
  constructor
  · rintro ⟨front, htext, hstop, hescapes, hfront⟩
    rcases List.cons_eq_append_iff.1 htext with ⟨rfl, rfl⟩ | ⟨before, rfl, rfl⟩
    · exact absurd hstop (Bool.eq_false_iff.1 hc)
    · rw [escapes_cons hslash] at hescapes
      exact ⟨before, rfl, hstop, hescapes, fun h => hfront ((shows_cons hslash _).2 (.inr h))⟩
  · rintro ⟨front, rfl, hstop, hescapes, hfront⟩
    refine ⟨c :: front, rfl, hstop, (escapes_cons hslash front).trans hescapes, fun h => ?_⟩
    rcases (shows_cons hslash front).1 h with h | h
    · exact absurd h (Bool.eq_false_iff.1 hc)
    · exact hfront h

/-- A backslash is passed over with what it escapes. -/
theorem finds_slash (hslash : stop '\\' = false) (d : Char) {text rest : List Char} :
    Finds stop ('\\' :: d :: text) rest ↔ Finds stop text rest := by
  constructor
  · rintro ⟨front, htext, hstop, hescapes, hfront⟩
    obtain ⟨c, more, rfl, hc⟩ : ∃ c more, rest = c :: more ∧ c ≠ '\\' := by
      cases rest with
      | nil => cases hstop
      | cons c more => exact ⟨c, more, rfl, ne_slash_of_stop hslash hstop⟩
    obtain ⟨before, rfl, rfl, hbefore⟩ := (slash_eq_append_iff hc hescapes).1 htext
    exact ⟨before, rfl, hstop, hbefore, fun h => hfront ((shows_slash hslash d before).2 h)⟩
  · rintro ⟨front, rfl, hstop, hescapes, hfront⟩
    exact ⟨'\\' :: d :: front, rfl, hstop, hescapes,
      fun h => hfront ((shows_slash hslash d front).1 h)⟩

/-- A backslash at the end escapes nothing. -/
theorem not_finds_slash (hslash : stop '\\' = false) (rest : List Char) :
    ¬Finds stop ['\\'] rest := by
  rintro ⟨front, htext, hstop, _⟩
  rcases List.cons_eq_append_iff.1 htext with ⟨rfl, rfl⟩ | ⟨before, rfl, hnil⟩
  · exact absurd hstop (Bool.eq_false_iff.1 hslash)
  · obtain ⟨_, rfl⟩ := List.append_eq_nil_iff.1 hnil.symm
    cases hstop

/-! ## Names -/

/-- Whether the search for a name stops at a character: one that begins a name, or a closing
brace. -/
def isStop (c : Char) : Bool := isStart c || c == '}'

/-- Whether a name that is read stops at a character. -/
def isEnd (c : Char) : Bool := c == ':' || c == '}'

/-- The next field name of a text begins where `name` does: the first unescaped character at which
the search stops can begin a name. -/
def StandsNext (text name : List Char) : Prop :=
  Finds isStop text name ∧ name.head?.any isStart = true

/-- No unescaped colon comes before the first unescaped closing brace, or before the end of the text
if there is no such brace. -/
def LacksColon (name : List Char) : Prop :=
  ∀ rest, ¬Finds isEnd name (':' :: rest)

/-- The search for a name comes to the first unescaped character at which it may stop. -/
theorem seek_eq_cons_iff {text rest : List Char} {c : Char} :
    seek text = c :: rest ↔ Finds isStop text (c :: rest) := by
  fun_induction seek text with
  | case1 => exact ⟨fun h => absurd h (by simp), fun h => absurd h (not_finds_nil _)⟩
  | case2 d tail hstop =>
    rw [finds_of_stop hstop]
    exact eq_comm
  | case3 => exact ⟨fun h => absurd h (by simp), fun h => absurd h (not_finds_slash rfl _)⟩
  | case4 d tail _ ih => rw [finds_slash rfl, ih]
  | case5 d tail hstop hslash ih => rw [finds_cons hslash (Bool.eq_false_iff.2 hstop), ih]

/-- A name is not read exactly where no colon ends it. -/
theorem read?_eq_none_iff {name : List Char} : read? name = none ↔ LacksColon name := by
  unfold LacksColon
  fun_induction read? name with
  | case1 => exact ⟨fun _ _ => not_finds_nil _, fun _ => rfl⟩
  | case2 tail =>
    have hfinds : Finds isEnd (':' :: tail) (':' :: tail) := (finds_of_stop rfl).2 rfl
    exact ⟨fun h => absurd h (by simp), fun h => absurd hfinds (h tail)⟩
  | case3 tail =>
    refine ⟨fun _ rest h => ?_, fun _ => rfl⟩
    rw [finds_of_stop rfl] at h
    cases h
  | case4 => exact ⟨fun _ _ => not_finds_slash rfl _, fun _ => rfl⟩
  | case5 d tail _ _ ih =>
    rw [Option.map_eq_none_iff, ih]
    exact forall_congr' fun rest => not_congr (finds_slash rfl d).symm
  | case6 c tail hcolon hbrace hslash ih =>
    have hc : isEnd c = false := by
      rw [isEnd, beq_false_of_ne hcolon, beq_false_of_ne hbrace]
      rfl
    rw [Option.map_eq_none_iff, ih]
    exact forall_congr' fun rest => not_congr (finds_cons hslash hc).symm

/-- Looking for a name fails exactly where the next one lacks a colon. -/
theorem next?_eq_error_iff {text : List Char} {e : FormatError} :
    next? text = .error e ↔
      ∃ name, StandsNext text name ∧ LacksColon name ∧
        e = .unterminatedName (FormatError.preview name) := by
  unfold next?
  constructor
  · intro h
    split at h
    · cases h
    · next c rest hseek =>
      split at h
      · cases h
      · next hbrace =>
        split at h
        · cases h
        · next hread =>
          have hstart : isStart c = true := (isStart_or_of_seek hseek).resolve_right hbrace
          cases h
          exact ⟨c :: rest, ⟨seek_eq_cons_iff.1 hseek, hstart⟩, read?_eq_none_iff.1 hread, rfl⟩
  · rintro ⟨name, ⟨hfinds, hstart⟩, hlacks, rfl⟩
    cases name with
    | nil => cases hstart
    | cons c rest =>
      obtain ⟨_, hbrace, _⟩ := ne_of_isStart hstart
      rw [seek_eq_cons_iff.2 hfinds]
      dsimp only
      rw [if_neg hbrace, read?_eq_none_iff.2 hlacks]

/-- A name that is found is an end of the text. -/
theorem StandsNext.suffix {text name : List Char} (h : StandsNext text name) : name <:+ text := by
  obtain ⟨⟨front, htext, _⟩, _⟩ := h
  exact ⟨front, htext.symm⟩

end FieldName

/-! ## Formats -/

/-- A preview is the text itself, or its first twenty characters with dots behind them. -/
theorem FormatError.toList_preview (text : List Char) :
    (preview text).toList =
      if text.length ≤ 20 then text else text.take 20 ++ ['.', '.', '.'] := by
  unfold preview previewLength
  split <;> exact String.toList_ofList

/-- A token fails exactly for the name in front of it. -/
theorem Token.next?_eq_error_iff {inRecord : Bool} {text : List Char} {e : FormatError} :
    next? inRecord text = .error e ↔ inRecord = true ∧ FieldName.next? text = .error e := by
  cases inRecord with
  | false => exact ⟨nofun, nofun⟩
  | true =>
    rw [next?, if_pos rfl]
    cases FieldName.next? text with
    | error failure => simp
    | ok found => cases found <;> simp

namespace Scan

variable {limit : Nat} {scan next : Scan}

/-- What is left of a text is an end of it. -/
theorem Reaches.suffix (h : Reaches limit scan next) : next.text <:+ scan.text := by
  induction h with
  | refl => exact List.suffix_rfl
  | tail _ step ih =>
    obtain ⟨_, htoken⟩ := Goes.token step
    exact (Token.suffix_of_next? htoken).trans ih

/-- A step fails for a name exactly inside a record in which the next name lacks a colon. -/
theorem next?_eq_unterminatedName_iff {preview : String} :
    scan.next? limit = .error (.unterminatedName preview) ↔
      scan.stack.head? = some .record ∧
        ∃ name, FieldName.StandsNext scan.text name ∧ FieldName.LacksColon name ∧
          preview = FormatError.preview name := by
  have htoken : scan.next? limit = .error (.unterminatedName preview) ↔
      Token.next? scan.inRecord scan.text = .error (.unterminatedName preview) := by
    unfold next?
    cases Token.next? scan.inRecord scan.text with
    | error e => simp only [Except.error.injEq]
    | ok found =>
      refine ⟨fun h => ?_, nofun⟩
      exfalso
      cases found with
      | none => cases hstack : scan.stack <;> rw [hstack] at h <;> cases h
      | some found =>
        dsimp only at h
        split at h
        · cases h
        · split at h
          · cases h
          split at h <;> cases h
        · cases h
        · cases h
  rw [htoken, Token.next?_eq_error_iff, FieldName.next?_eq_error_iff, inRecord, beq_iff_eq]
  refine and_congr_right fun _ => exists_congr fun name => ?_
  rw [FormatError.unterminatedName.injEq]

end Scan

namespace Format

/-- Reading a text comes, directly inside a record, to a place from which on the next field name
begins where `name` does. -/
def ExpectsName (limits : Limits) (source : String) (name : List Char) : Prop :=
  ∃ outer text, Scan.Reaches limits.depth.toNat (.start source.toList) ⟨.record :: outer, text⟩ ∧
    FieldName.StandsNext text name

/-- **The error for a name without a colon shows the text from that name on.**

A text is refused for such a name exactly if an end of it begins as names do, stands where a record
expects its next name, and has no unescaped colon before its first unescaped closing brace.  What
the error shows is this end of the text, or its first twenty characters and dots if it is longer. -/
theorem unterminatedName_iff_lacksColon {limits : Limits} {source preview : String} :
    ofText limits source = .error (.unterminatedName preview) ↔
      ∃ name, name <:+ source.toList ∧
        name.head?.any (fun c => c.isAlpha || c == '_' || c == '$') = true ∧
        ExpectsName limits source name ∧ FieldName.LacksColon name ∧
        preview.toList =
          if name.length ≤ 20 then name else name.take 20 ++ ['.', '.', '.'] := by
  have hrefuses : (FormatError.unterminatedName preview).Refuses 0 := trivial
  rw [ofText_eq_error_iff hrefuses, Layout.parse_eq_error_iff]
  constructor
  · rintro ⟨⟨stack, text⟩, hreaches, hfails⟩
    obtain ⟨hrecord, name, hnext, hlacks, rfl⟩ := Scan.next?_eq_unterminatedName_iff.1 hfails
    obtain ⟨outer, rfl⟩ : ∃ outer, stack = .record :: outer := List.head?_eq_some_iff.1 hrecord
    exact ⟨name, hnext.suffix.trans hreaches.suffix, hnext.2, ⟨outer, text, hreaches, hnext⟩,
      hlacks, FormatError.toList_preview name⟩
  · rintro ⟨name, _, _, ⟨outer, text, hreaches, hnext⟩, hlacks, hpreview⟩
    obtain rfl : preview = FormatError.preview name :=
      String.toList_inj.1 (hpreview.trans (FormatError.toList_preview name).symm)
    exact ⟨_, hreaches, Scan.next?_eq_unterminatedName_iff.2 ⟨rfl, name, hnext, hlacks, rfl⟩⟩

/-- An escaped letter and an escaped brace stand in front of the name, an escaped colon and another
brace inside it, and then the text ends. -/
theorem unterminatedName_behind_escapes :
    ExpectsName {} "\x7bk:C \\a\\\x7d$\\:é\\\x7d bcdefghijklmnop"
        "$\\:é\\\x7d bcdefghijklmnop".toList ∧
      FieldName.LacksColon "$\\:é\\\x7d bcdefghijklmnop".toList ∧
      ofText {} "\x7bk:C \\a\\\x7d$\\:é\\\x7d bcdefghijklmnop" =
        .error (.unterminatedName "$\\:é\\\x7d bcdefghijklmn...") := by
  have hopening : Scan.Goes 64 (.start "\x7bk:C \\a\\\x7d$\\:é\\\x7d bcdefghijklmnop".toList)
      ⟨[.record], "k:C \\a\\\x7d$\\:é\\\x7d bcdefghijklmnop".toList⟩ := by
    unfold Scan.Goes
    decide +kernel
  have hfield : Scan.Goes 64 ⟨[.record], "k:C \\a\\\x7d$\\:é\\\x7d bcdefghijklmnop".toList⟩
      ⟨[.record], " \\a\\\x7d$\\:é\\\x7d bcdefghijklmnop".toList⟩ := by
    unfold Scan.Goes
    decide +kernel
  have hnext : FieldName.StandsNext " \\a\\\x7d$\\:é\\\x7d bcdefghijklmnop".toList
      "$\\:é\\\x7d bcdefghijklmnop".toList :=
    ⟨FieldName.seek_eq_cons_iff.1 (by decide +kernel), by decide⟩
  have hexpects : ExpectsName {} "\x7bk:C \\a\\\x7d$\\:é\\\x7d bcdefghijklmnop"
      "$\\:é\\\x7d bcdefghijklmnop".toList := ⟨[], _, .tail (.single hopening) hfield, hnext⟩
  have hlacks : FieldName.LacksColon "$\\:é\\\x7d bcdefghijklmnop".toList :=
    FieldName.read?_eq_none_iff.1 (by decide +kernel)
  exact ⟨hexpects, hlacks,
    unterminatedName_iff_lacksColon.2 ⟨_, by decide, by decide, hexpects, hlacks, by decide⟩⟩

end Format

end BinaryLayout
