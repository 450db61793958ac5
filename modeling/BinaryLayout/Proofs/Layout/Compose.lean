import BinaryLayout.Proofs.Layout.Codes
import BinaryLayout.Proofs.Layout.Idle
import BinaryLayout.Proofs.SinglePass

/-!
# Formats one after the other

A text that reads as a layout ends outside of all groups and names.  With a space behind it no code
and no count of it can reach further, so another text behind the space is read as it would be alone.

There are four groups.

* Tokens of a longer text.  `Token.next?_append` says that a token is read alike when a space and
  more text follow.
* Layouts of a longer text.  `Reads.parseFrom_append` is the induction over the rules: a group ends
  where it ended, and at top level the reading goes on behind the space.
* Refusals of a longer text.  An error that does not wait for the end of the text stays
  (`parseFrom_append_of_error`).
* Formats.  `Format.ofText_append` puts them together, with the data that the joined format decodes.
-/

namespace BinaryLayout

/-! ## Tokens of a longer text -/

section

variable {text name rest : List Char}

/-- A count ends in front of anything that is no digit. -/
theorem Count.read_append {more : List Char} (hmore : Ends more) :
    read (text ++ more) = ((read text).1, (read text).2 ++ more) := by
  obtain ⟨htake, hdrop⟩ := takeWhile_isDigit_of_ends hmore
  have hsplit : (text ++ more).takeWhile Char.isDigit = text.takeWhile Char.isDigit ∧
      (text ++ more).dropWhile Char.isDigit = text.dropWhile Char.isDigit ++ more := by
    induction text with
    | nil => exact ⟨htake, hdrop⟩
    | cons c text ih => by_cases hc : c.isDigit = true <;> simp [hc, ih]
  rw [read, hsplit.1, hsplit.2, read]

variable (more : List Char)

namespace FieldName

/-- A search that stops in a text stops there in a longer one. -/
theorem seek_append {c : Char} (h : seek text = c :: rest) :
    seek (text ++ more) = c :: (rest ++ more) := by
  fun_induction seek text with
  | case1 | case3 => cases h
  | case2 d tail hstop =>
    cases h
    rw [List.cons_append, seek.eq_def]
    simp [hstop]
  | case4 d tail hstop ih =>
    rw [List.cons_append, List.cons_append, seek_escape]
    exact ih h
  | case5 d tail hstop hslash ih =>
    rw [List.cons_append, seek.eq_def]
    simpa [hstop, hslash] using ih h

/-- A name that ends in a text ends there in a longer one. -/
theorem read?_append (h : read? text = some (name, rest)) :
    read? (text ++ more) = some (name, rest ++ more) := by
  fun_induction read? text generalizing name rest with
  | case1 | case3 | case4 => cases h
  | case2 =>
    cases h
    exact read?_colon _
  | case5 d tail _ _ ih =>
    obtain ⟨⟨later, left⟩, hread, he⟩ := Option.map_eq_some_iff.1 h
    cases he
    rw [List.cons_append, List.cons_append, read?_escape, ih hread]
    rfl
  | case6 c tail hcolon hbrace hslash ih =>
    obtain ⟨⟨later, left⟩, hread, he⟩ := Option.map_eq_some_iff.1 h
    cases he
    rw [List.cons_append, read?_cons hcolon hbrace hslash, ih hread]
    rfl

/-- A name that is found in a text, with something left behind it, is found in a longer one. -/
theorem next?_append (h : next? text = .ok (some (name, rest))) (hrest : rest ≠ []) :
    next? (text ++ more) = .ok (some (name, rest ++ more)) := by
  unfold next? at h ⊢
  split at h
  · cases h
  · next c tail hseek =>
    rw [seek_append more hseek]
    dsimp only
    split at h
    · next hbrace =>
      cases h
      rw [if_pos hbrace]
      rfl
    · next hbrace =>
      split at h
      · next hread =>
        cases h
        have hmore := read?_append more hread
        rw [List.cons_append] at hmore
        rw [if_neg hbrace, hmore]
        dsimp only
        rw [List.dropWhile_append, if_neg (by simpa using hrest)]
      · cases h

end FieldName

namespace Token

/-- No code reaches beyond a space. -/
theorem code?_append {code : Code} (h : code? text = some (code, rest)) :
    code? (text ++ ' ' :: more) = some (code, rest ++ ' ' :: more) := by
  unfold code? at h
  split at h
  · cases h
  · next c =>
    cases h
    rfl
  · next c d tail =>
    rw [List.cons_append, List.cons_append, code?]
    split at h
    · cases h
      rfl
    · cases h
      rfl

theorem read?_append {name : Option String} {token : Token}
    (h : read? name text = some (token, rest)) :
    read? name (text ++ ' ' :: more) = some (token, rest ++ ' ' :: more) := by
  obtain ⟨rfl, behind, hcode, hcount⟩ := read?_eq_some h
  have hspace : Count.Ends (' ' :: more) := Count.ends_cons (by decide)
  rw [read?, code?_append more hcode, Option.map_some]
  dsimp only
  rw [Count.read_append hspace, hcount]

/-- A token is read alike if a space and more text follow. -/
theorem next?_append {inRecord : Bool} {token : Token}
    (h : next? inRecord text = .ok (some (token, rest))) :
    next? inRecord (text ++ ' ' :: more) = .ok (some (token, rest ++ ' ' :: more)) := by
  unfold next? at h ⊢
  split at h
  · next hrecord =>
    rw [if_pos hrecord]
    split at h
    · cases h
    · cases h
    · next name behind hname =>
      have hread := Except.ok.inj h
      have hbehind : behind ≠ [] := by
        rintro rfl
        cases hread
      rw [FieldName.next?_append _ hname hbehind]
      dsimp only
      rw [read?_append more hread]
  · next hrecord =>
    rw [if_neg hrecord, read?_append more (Except.ok.inj h)]

end Token

end

/-! ## Layouts of a longer text -/

namespace Layout

/-- What is read when a space and more text stand behind the text of a layout: a group ends where it
ended, and at top level the reading goes on. -/
def readOn (limit depth : Nat) (layout : Layout) (left more : List Char) :
    Option GroupKind → Except FormatError (Layout × List Char)
  | some _ => .ok (layout, left ++ ' ' :: more)
  | none => (parseFrom limit none depth more).map fun (later, rest) => (layout ++ later, rest)

variable {limit : Nat} {within : Option GroupKind} {depth : Nat} {text left : List Char}
  {layout : Layout}

theorem readOn_some (kind : GroupKind) (more : List Char) :
    readOn limit depth layout left more (some kind) = .ok (layout, left ++ ' ' :: more) := rfl

/-- What stands in front of a layout stands in front of all that is read on. -/
theorem readOn_bind {front : Layout → Layout}
    (hfront : ∀ later, front layout ++ later = front (layout ++ later)) (more : List Char)
    (within : Option GroupKind) :
    (do
      let (later, rest) ← readOn limit depth layout left more within
      .ok (front later, rest)) = readOn limit depth (front layout) left more within := by
  cases within with
  | some kind => rfl
  | none =>
    rw [readOn, readOn]
    cases parseFrom limit none depth more with
    | error e => rfl
    | ok later => simp only [Except.map, bind, Except.bind, hfront]

/-- With a space and more text behind it, a layout that ends with its group is read as it was, and
one at top level is followed by what the text behind the space reads as. -/
theorem Reads.parseFrom_append (h : Reads limit within depth text layout left)
    (more : List Char) :
    parseFrom limit within depth (text ++ ' ' :: more) =
      readOn limit depth layout left more within := by
  induction h with
  | @ended depth text next =>
    rw [Token.eq_nil_of_next? next, List.nil_append, parseFrom_cons isIdle_space, readOn]
    cases parseFrom limit none depth more <;> rfl
  | field next code _ ih =>
    rw [parseFrom_eq, Token.next?_append more next]
    simp only [code, ih]
    exact readOn_bind (fun _ => rfl) more _
  | group next code repeats room _ _ ihBody ihTail =>
    rw [parseFrom_eq, Token.next?_append more next]
    simp only [code, repeats, Nat.not_le.2 room, if_false, ihBody, readOn_some]
    rw [← readOn_bind (fun _ => rfl) more, ← ihTail]
    rfl
  | closed next code =>
    rw [parseFrom_eq, Token.next?_append more next]
    simp only [code]
    rfl
  | skipped next code _ ih =>
    rw [parseFrom_eq, Token.next?_append more next]
    rcases code with code | ⟨code, rfl⟩
    · simp only [code]
      exact ih
    · simp only [code]
      exact ih

end Layout

/-! ## Refusals of a longer text -/

/-- An error that does not wait for the end of a text or of a record: the group at fault is known
when its count has been read. -/
def FormatError.IsFinal : FormatError → Prop
  | .zeroRepeat _ | .tooDeep _ => True
  | _ => False

namespace Layout

theorem parseFrom_append_of_error {limit : Nat} {within : Option GroupKind} {depth : Nat}
    {text : List Char} {e : FormatError} (h : parseFrom limit within depth text = .error e)
    (he : e.IsFinal) (more : List Char) :
    parseFrom limit within depth (text ++ ' ' :: more) = .error e := by
  rw [parseFrom_eq] at h
  split at h
  · next hn =>
    cases h
    obtain ⟨_, rfl⟩ := Token.eq_unterminatedName_of_next? hn
    cases he
  · cases within <;> cases h
    cases he
  · next token rest hn =>
    have hr : rest.length < text.length := Token.length_of_next? hn
    rw [parseFrom_eq, Token.next?_append more hn]
    dsimp only
    split at h
    · rcases bind_eq_error.1 h with hp | ⟨_, _, h⟩
      · rw [parseFrom_append_of_error hp he]
        rfl
      · cases h
    · split at h
      · next hzero => rw [if_pos hzero, h]
      next hzero =>
      split at h
      · next hdeep => rw [if_neg hzero, if_pos hdeep, h]
      next hdeep =>
      rw [if_neg hzero, if_neg hdeep]
      rcases bind_eq_error.1 h with hb | ⟨⟨body, behind⟩, hb, h⟩
      · rw [parseFrom_append_of_error hb he]
        rfl
      have hbehind : behind.length ≤ rest.length := length_le_of_parseFrom hb
      rw [(reads_of_parseFrom hb).parseFrom_append more, readOn_some]
      rcases bind_eq_error.1 h with hm | ⟨_, _, h⟩
      · simp only [bind, Except.bind]
        rw [parseFrom_append_of_error hm he]
      · cases h
    · split at h
      · cases h
      · next hwithin =>
        rw [if_neg hwithin]
        exact parseFrom_append_of_error h he more
    · exact parseFrom_append_of_error h he more
termination_by text.length

section

variable {limit : Nat} {text : List Char}

/-- A text that reads as a layout is followed by what the text behind the space reads as. -/
theorem parse_append {layout : Layout} (h : parse limit text = .ok layout) (more : List Char) :
    parse limit (text ++ ' ' :: more) = (parse limit more).map fun later => layout ++ later := by
  obtain ⟨left, hreads⟩ := reads_of_parse h
  rw [parse, hreads.parseFrom_append more, readOn, parse]
  cases parseFrom limit none 0 more <;> rfl

theorem parse_append_of_error {e : FormatError} (h : parse limit text = .error e) (he : e.IsFinal)
    (more : List Char) : parse limit (text ++ ' ' :: more) = .error e := by
  rcases bind_eq_error.1 h with hp | ⟨_, _, h⟩
  · rw [parse, parseFrom_append_of_error hp he]
    rfl
  · cases h

end

/-! ## Formats -/

/-- The second of two layouts runs from where the first one ends. -/
theorem run_append (layout more : Layout) (bytes : Payload) (p : Position) :
    (layout ++ more).run bytes p =
      ((layout.run bytes p).1 ++ (more.run bytes (layout.run bytes p).2).1,
        (more.run bytes (layout.run bytes p).2).2) := by
  induction layout generalizing p with
  | done => rfl
  | field name f count rest ih =>
    show (Layout.field name f count (rest ++ more)).run bytes p = _
    rw [run_field, ih, run_field]
    rfl
  | group name kind count body rest _ ih =>
    show (Layout.group name kind count body (rest ++ more)).run bytes p = _
    rw [run_group, ih, run_group]
    rfl

end Layout

namespace Format

/-- The format of two texts with a space between them. -/
def join (first second : Format) : Format :=
  ⟨first.source ++ " " ++ second.source, first.layout ++ second.layout⟩

/-- The second of two formats decodes from where the first one ends. -/
theorem decode_join (first second : Format) (bytes : Payload) (offset : Int) :
    (first.join second).decode bytes offset =
      first.decode bytes offset ++ Part.flatten
        (second.layout.run bytes (first.layout.run bytes (Position.ofOffset offset)).2).1 := by
  show Part.flatten ((first.layout ++ second.layout).run bytes (Position.ofOffset offset)).1 = _
  rw [Layout.run_append]
  exact List.flatMap_append

theorem toList_join (first second : String) :
    (first ++ " " ++ second).toList = first.toList ++ ' ' :: second.toList := by
  simp [String.toList_append]

/-- A format and a space in front of a text make a format of it, or leave it its error. -/
theorem ofText_append_of_ok {depth : UInt64} {first : String} {format : Format}
    (h : ofText ⟨depth, Limits.greatest.values⟩ first = .ok format) (second : String) :
    ofText ⟨depth, Limits.greatest.values⟩ (first ++ " " ++ second) =
      (ofText ⟨depth, Limits.greatest.values⟩ second).map format.join := by
  obtain ⟨hparse, _, rfl⟩ := ofText_eq_ok_iff.1 h
  rw [SinglePass.ofText_greatest_values, SinglePass.ofText_greatest_values, toList_join,
    Layout.parse_append hparse]
  cases Layout.parse depth.toNat second.toList <;> rfl

/-- An error that does not wait for the end of a text stays in front of all other texts. -/
theorem ofText_append_of_error {depth : UInt64} {first : String} {e : FormatError}
    (h : ofText ⟨depth, Limits.greatest.values⟩ first = .error e) (he : e.IsFinal)
    (second : String) :
    ofText ⟨depth, Limits.greatest.values⟩ (first ++ " " ++ second) = .error e := by
  rw [SinglePass.ofText_greatest_values] at h ⊢
  have hparse : Layout.parse depth.toNat first.toList = .error e := by
    cases hread : Layout.parse depth.toNat first.toList with
    | error failure =>
      rw [hread] at h
      cases h
      rfl
    | ok layout =>
      rw [hread] at h
      cases h
  rw [toList_join, Layout.parse_append_of_error hparse he]
  rfl

/-- Whatever the depth allowed, and with no limit on the values: behind a format and a space, a text
is a format exactly if it is one alone, and the two then decode as the first one and, from where
that ends, the second one; a text that is refused is refused for the same reason.  A text that
repeats a group no times or nests groups too deeply stays refused for that, whatever stands behind
the space. -/
theorem ofText_append (depth : UInt64) (first second : String) :
    let limits : Limits := ⟨depth, Limits.greatest.values⟩
    (∀ format, ofText limits first = .ok format →
      (∀ more, ofText limits second = .ok more →
        ofText limits (first ++ " " ++ second) =
            .ok ⟨first ++ " " ++ second, format.layout ++ more.layout⟩ ∧
          ∀ bytes offset,
            Format.decode ⟨first ++ " " ++ second, format.layout ++ more.layout⟩ bytes offset =
              format.decode bytes offset ++ Part.flatten (more.layout.run bytes
                (format.layout.run bytes (Position.ofOffset offset)).2).1) ∧
      ∀ e, ofText limits second = .error e →
        ofText limits (first ++ " " ++ second) = .error e) ∧
    (∀ kind, ofText limits first = .error (.zeroRepeat kind) →
      ofText limits (first ++ " " ++ second) = .error (.zeroRepeat kind)) ∧
    ∀ limit, ofText limits first = .error (.tooDeep limit) →
      ofText limits (first ++ " " ++ second) = .error (.tooDeep limit) := by
  intro limits
  refine ⟨fun format hformat => ⟨fun more hmore => ?_, fun e he => ?_⟩, fun kind h => ?_,
    fun limit h => ?_⟩
  · obtain ⟨_, _, rfl⟩ := ofText_eq_ok_iff.1 hformat
    obtain ⟨_, _, rfl⟩ := ofText_eq_ok_iff.1 hmore
    refine ⟨?_, decode_join format more⟩
    rw [ofText_append_of_ok hformat, hmore]
    rfl
  · rw [ofText_append_of_ok hformat, he]
    rfl
  · exact ofText_append_of_error h trivial second
  · exact ofText_append_of_error h trivial second

/-- A record with a stray count behind it, and behind the space digits, a mark and a bracket that
mean nothing there; and a name without an end behind the same record. -/
theorem ofText_append_digits :
    let limits : Limits := ⟨2, Limits.greatest.values⟩
    let number : Field := .number (.word .unsigned .two .big)
    let layout : Layout := .group none .record 1
      (.field (some "a") (.number (.byte .unsigned)) 1 .done)
      (.field none (.text .zeroPadded) 1 .done)
    (ofText limits "{a:C}7 Z" = .ok ⟨"{a:C}7 Z", layout⟩ ∧
      ofText limits "12+]n" = .ok ⟨"12+]n", .field none number 1 .done⟩ ∧
      ofText limits "{a:C}7 Z 12+]n" =
        .ok ⟨"{a:C}7 Z 12+]n", layout ++ .field none number 1 .done⟩ ∧
      ofText limits "\x7bname" = .error (.unterminatedName "name") ∧
      ofText limits "{a:C}7 Z \x7bname" = .error (.unterminatedName "name")) ∧
    (ofText limits "[0" = .error (.zeroRepeat .array) ∧
      ofText limits "[0 12+]n" = .error (.zeroRepeat .array)) ∧
    (ofText limits "[[[" = .error (.tooDeep 2) ∧
      ofText limits "[[[ 12+]n" = .error (.tooDeep 2)) := by
  intro limits number layout
  have hformat : ofText limits "{a:C}7 Z" = .ok ⟨"{a:C}7 Z", layout⟩ := by decide +kernel
  have hmore : ofText limits "12+]n" = .ok ⟨"12+]n", .field none number 1 .done⟩ := by
    decide +kernel
  have hname : ofText limits "\x7bname" = .error (.unterminatedName "name") := by decide +kernel
  have hzero : ofText limits "[0" = .error (.zeroRepeat .array) := by decide +kernel
  have hdeep : ofText limits "[[[" = .error (.tooDeep 2) := by decide +kernel
  refine ⟨⟨hformat, hmore, ?_, hname, ?_⟩, ⟨hzero, ?_⟩, hdeep, ?_⟩
  · exact (((ofText_append 2 "{a:C}7 Z" "12+]n").1 _ hformat).1 _ hmore).1
  · exact ((ofText_append 2 "{a:C}7 Z" "\x7bname").1 _ hformat).2 _ hname
  · exact (ofText_append 2 "[0" "12+]n").2.1 _ hzero
  · exact (ofText_append 2 "[[[" "12+]n").2.2 _ hdeep

end Format

end BinaryLayout
