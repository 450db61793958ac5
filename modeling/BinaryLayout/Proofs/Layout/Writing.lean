import BinaryLayout.Proofs.Layout.Limits
import BinaryLayout.Proofs.Layout.WellFormed

/-!
# Writing a layout

Every well-formed layout can be written as a text, and the text is read back as that layout.

There are three groups.

* What is written.  Each field has an explicit code and each count its digits, a space stands behind
  every field and group, and in a name colons and backslashes are escaped (`FieldName.write`).
* What one token is read back as.  `FieldName.next?_write_append` and `Token.next?_write` say that
  nothing behind a name, a code or a count is taken for a part of it.
* What a layout is read back as.  `reads_write_append` is the induction over the layout: whatever
  text ends the place that the layout stands in, the rules read the layout in front of it.
-/

namespace BinaryLayout

/-! ## What is written -/

/-- A name as it is written in front of its colon: a colon is escaped, and so is a backslash unless
it is the one that hides a closing brace. -/
def FieldName.write : List Char → List Char
  | [] => []
  | c :: rest =>
    if c = ':' then '\\' :: ':' :: write rest
    else if c = '\\' ∧ rest.head? ≠ some '}' then '\\' :: '\\' :: write rest
    else c :: write rest

/-- The character that asks for this byte order. -/
def ByteOrder.mark : ByteOrder → Char
  | .big => '>'
  | .little => '<'

/-- The letter of an integer of several bytes. -/
def WordSize.letter : WordSize → Signedness → Char
  | .two, .signed => 's'
  | .two, .unsigned => 'S'
  | .four, .signed => 'l'
  | .four, .unsigned => 'L'
  | .eight, .signed => 'q'
  | .eight, .unsigned => 'Q'

/-- The letter of a floating-point number. -/
def Precision.letter : Precision → Char
  | .single => 'f'
  | .double => 'd'

/-- The code of a number, with its byte order if it has one. -/
def NumberField.write : NumberField → List Char
  | .byte .signed => ['c']
  | .byte .unsigned => ['C']
  | .word sign size order => [size.letter sign, order.mark]
  | .real precision order => [precision.letter, order.mark]

/-- The letter of a text of fixed width. -/
def TextField.letter : TextField → Char
  | .raw => 'a'
  | .blankPadded => 'A'
  | .zeroPadded => 'Z'
  | .hex .high => 'H'
  | .hex .low => 'h'

/-- The character of a move. -/
def Move.letter : Move → Char
  | .forward => 'x'
  | .backward => 'X'
  | .absolute => '@'

/-- The explicit code of a field. -/
def Field.write : Field → List Char
  | .number field => field.write
  | .text field => [field.letter]
  | .terminated => ['Z', '+']
  | .move step => [step.letter]

/-- The bracket that closes a group. -/
def GroupKind.closingBracket : GroupKind → Char
  | .array => ']'
  | .record => '}'

namespace Layout

/-- A name with its colon, where there is a name. -/
def writeName : Option String → List Char
  | none => []
  | some name => FieldName.write name.toList ++ [':']

/-- The text of a layout, with a space behind every field and group. -/
def write : Layout → List Char
  | .done => []
  | .field name f count rest =>
    writeName name ++ f.write ++ Count.write count ++ [' '] ++ rest.write
  | .group name kind count body rest =>
    writeName name ++ [kind.bracket] ++ Count.write count ++ [' '] ++ body.write ++
      [kind.closingBracket, ' '] ++ rest.write

end Layout

/-! ## What one token is read back as -/

namespace FieldName

theorem read?_colon (text : List Char) : read? (':' :: text) = some ([], text) := by
  rw [read?.eq_def]
  rfl

theorem read?_escape (c : Char) (text : List Char) :
    read? ('\\' :: c :: text) =
      (read? text).map fun (name, rest) => (unescape c ++ name, rest) := by
  rw [read?.eq_def]
  rfl

/-- Only a backslash can stand right before a closing brace. -/
theorem head?_ne_brace {c : Char} {name : List Char} (h : (c :: name).IsChain Hides)
    (hc : c ≠ '\\') : name.head? ≠ some '}' := by
  intro hbrace
  exact hc ((List.isChain_cons.1 h).1 '}' hbrace rfl)

/-- A written name is read back, up to the colon behind it. -/
theorem read?_write_append (text : List Char) : (name : List Char) → name.head? ≠ some '}' →
    name.IsChain Hides → read? (write name ++ ':' :: text) = some (name, text)
  | [], _, _ => read?_colon text
  | c :: name, hstart, h => by
    have htail : name.IsChain Hides := h.tail
    rw [write]
    by_cases hcolon : c = ':'
    · subst hcolon
      have hread := read?_write_append text name (head?_ne_brace h (by decide)) htail
      rw [if_pos rfl, List.cons_append, List.cons_append, read?_escape, hread]
      rfl
    rw [if_neg hcolon]
    by_cases hslash : c = '\\'
    · subst hslash
      by_cases hbrace : name.head? = some '}'
      · -- The backslash hides a brace, and the two are read together.
        obtain ⟨more, rfl⟩ := List.head?_eq_some_iff.1 hbrace
        have hread := read?_write_append text more (head?_ne_brace htail (by decide)) htail.tail
        have hwrite : write ('}' :: more) = '}' :: write more := rfl
        rw [if_neg (by simp), hwrite, List.cons_append, List.cons_append, read?_escape, hread]
        rfl
      · have hread := read?_write_append text name hbrace htail
        rw [if_pos ⟨rfl, hbrace⟩, List.cons_append, List.cons_append, read?_escape, hread]
        rfl
    · have hread := read?_write_append text name (head?_ne_brace h hslash) htail
      have hbrace : c ≠ '}' := fun hc => hstart (by rw [hc]; rfl)
      rw [if_neg (fun hc => hslash hc.1), List.cons_append, read?_cons hcolon hbrace hslash, hread]
      rfl
termination_by name => name.length

/-- A valid name begins, written or not, with a character that names begin with. -/
theorem IsValid.exists_cons {name : List Char} (h : IsValid name) :
    ∃ c rest, isStart c = true ∧ name = c :: rest ∧ write name = c :: write rest := by
  match name, h with
  | [], h => exact absurd h.start (by decide)
  | c :: rest, h =>
    obtain ⟨hcolon, _, hslash⟩ := ne_of_isStart h.start
    refine ⟨c, rest, h.start, rfl, ?_⟩
    rw [write, if_neg hcolon, if_neg (fun hc => hslash hc.1)]

theorem isDigit_of_isAlpha {c : Char} (h : c.isAlpha = true) : c.isDigit = false := by
  have hletter : c.isUpper = true ∨ c.isLower = true := Bool.or_eq_true_iff.1 h
  -- All letters stand behind the digits.
  have hlow : 'A'.toNat ≤ c.toNat := by
    rcases hletter with hupper | hlower
    · exact UInt32.le_iff_toNat_le.1 (of_decide_eq_true hupper).1
    · have hsmall : decide (c.val ≥ 'a'.val) = true := (Bool.and_eq_true_iff.1 hlower).1
      have hlow : 'a'.toNat ≤ c.toNat := UInt32.le_iff_toNat_le.1 (of_decide_eq_true hsmall)
      exact Nat.le_trans (by decide) hlow
  have hhigh : ¬c.val ≤ '9'.val := by
    intro hle
    have hdigit : c.toNat ≤ '9'.toNat := UInt32.le_iff_toNat_le.1 hle
    exact absurd (Nat.le_trans hlow hdigit) (by decide)
  exact Bool.and_eq_false_iff.2 (.inr (decide_eq_false hhigh))

/-- A name does not begin with a digit. -/
theorem isDigit_of_isStart {c : Char} (h : isStart c = true) : c.isDigit = false := by
  have hcases : (c.isAlpha = true ∨ c = '_') ∨ c = '$' := by simpa [isStart] using h
  rcases hcases with (halpha | rfl) | rfl
  · exact isDigit_of_isAlpha halpha
  · rfl
  · rfl

/-- A written name is the next name. -/
theorem next?_write_append {name text : List Char} (h : IsValid name)
    (htext : ∀ c ∈ text.head?, Text.isAsciiBlank c = false) :
    next? (write name ++ ':' :: text) = .ok (some (name, text)) := by
  obtain ⟨c, rest, hc, hname, hwrite⟩ := h.exists_cons
  obtain ⟨_, hbrace, _⟩ := ne_of_isStart hc
  have hstart : name.head? ≠ some '}' := by
    rw [hname]
    simpa using hbrace
  have hread := read?_write_append text name hstart h.braces
  have hdrop : text.dropWhile Text.isAsciiBlank = text := by
    cases text with
    | nil => rfl
    | cons d more => simp [htext d rfl]
  have hseek : seek (write name ++ ':' :: text) = write name ++ ':' :: text := by
    rw [hwrite, List.cons_append, seek.eq_def]
    simp [hc]
  rw [next?, hseek]
  rw [hwrite, List.cons_append] at hread ⊢
  dsimp only
  rw [if_neg hbrace, hread]
  dsimp only
  rw [hdrop]

/-- The search for a name skips blanks. -/
theorem next?_blank (text : List Char) : next? (' ' :: text) = next? text := by
  have hseek : seek (' ' :: text) = seek text := by
    rw [seek.eq_def]
    rfl
  rw [next?, hseek, next?]

end FieldName

namespace Token

theorem ofPair?_of_isDigit (c : Char) {d : Char} (hd : d.isDigit = true) :
    Code.ofPair? c d = none := by
  unfold Code.ofPair?
  split
  · exact absurd hd (by decide)
  · exact absurd hd (by decide)
  · exact absurd hd (by decide)
  · rfl

/-- In front of a digit a character stands for itself. -/
theorem code?_of_isDigit (c : Char) {d : Char} (hd : d.isDigit = true) (text : List Char) :
    code? (c :: d :: text) = some (.ofChar c, d :: text) := by
  rw [code?, ofPair?_of_isDigit c hd]

/-- The code of a field is read back in front of its count. -/
theorem code?_write_append (f : Field) {d : Char} (hd : d.isDigit = true) (text : List Char) :
    code? (f.write ++ d :: text) = some (.field f, d :: text) := by
  cases f with
  | number field =>
    cases field with
    | byte sign => cases sign <;> exact code?_of_isDigit _ hd text
    | word sign size order => cases sign <;> cases size <;> cases order <;> rfl
    | real precision order => cases precision <;> cases order <;> rfl
  | text field =>
    cases field with
    | raw | blankPadded | zeroPadded => exact code?_of_isDigit _ hd text
    | hex first => cases first <;> exact code?_of_isDigit _ hd text
  | terminated => rfl
  | move step => cases step <;> exact code?_of_isDigit _ hd text

/-- The bracket of a group is read back in front of its count. -/
theorem code?_bracket (kind : GroupKind) {d : Char} (hd : d.isDigit = true) (text : List Char) :
    code? (kind.bracket :: d :: text) = some (.opening kind, d :: text) := by
  cases kind <;> exact code?_of_isDigit _ hd text

/-- A code that is read back in front of digits is read back with its count. -/
theorem read?_write {spelling : List Char} {code : Code}
    (hcode : ∀ d text, d.isDigit = true →
      code? (spelling ++ d :: text) = some (code, d :: text))
    (name : Option String) {count : Nat} (hcount : count ≤ Count.greatest) {text : List Char}
    (htext : Count.Ends text) :
    read? name (spelling ++ (Count.write count ++ text)) =
      some (⟨name, code, some count⟩, text) := by
  obtain ⟨d, digits, hwrite, hd⟩ := Count.exists_write_eq_cons count
  have hread := hcode d (digits ++ text) hd
  rw [← List.cons_append, ← hwrite] at hread
  rw [read?, hread, Option.map_some]
  dsimp only
  rw [Count.read_write_append hcount htext]

/-- What stands behind a name is read under that name. -/
theorem next?_writeName {inRecord : Bool} {name : Option String}
    (hname : Layout.NameFits inRecord name) {text : List Char}
    (htext : ∀ c ∈ text.head?, Text.isAsciiBlank c = false) :
    next? inRecord (Layout.writeName name ++ text) = .ok (read? name text) := by
  match inRecord, name, hname with
  | false, none, _ => rfl
  | true, some name, hname =>
    have hnext := FieldName.next?_write_append hname htext
    rw [Layout.writeName, List.append_assoc, List.singleton_append, next?, if_pos rfl, hnext]
    dsimp only
    rw [String.ofList_toList]

/-- A name, a code and a count make a token. -/
theorem next?_write {spelling : List Char} {code : Code}
    (hblank : ∀ c ∈ spelling.head?, Text.isAsciiBlank c = false) (hne : spelling ≠ [])
    (hcode : ∀ d text, d.isDigit = true →
      code? (spelling ++ d :: text) = some (code, d :: text))
    {inRecord : Bool} {name : Option String} (hname : Layout.NameFits inRecord name) {count : Nat}
    (hcount : count ≤ Count.greatest) {text : List Char} (htext : Count.Ends text) :
    next? inRecord (Layout.writeName name ++ (spelling ++ (Count.write count ++ text))) =
      .ok (some (⟨name, code, some count⟩, text)) := by
  rw [next?_writeName hname, read?_write hcode name hcount htext]
  rw [List.head?_append_of_ne_nil _ hne]
  exact hblank

/-- The bracket that closes a group is read back where the group can end. -/
theorem exists_next?_closingBracket (kind : GroupKind) {text : List Char}
    (htext : Count.Ends text) :
    ∃ token, next? (some kind == some .record) (kind.closingBracket :: text) =
      .ok (some (token, text)) ∧ token.code = .closing := by
  have hcount := Count.read_of_ends htext
  cases kind with
  | array =>
    have hcode : code? (']' :: text) = some (.closing, text) := code?_of_closing (.inl rfl) text
    refine ⟨⟨none, .closing, none⟩, ?_, rfl⟩
    rw [GroupKind.closingBracket, next?, if_neg (by decide), read?, hcode, Option.map_some]
    dsimp only
    rw [hcount]
  | record =>
    have hcode : code? ('}' :: text) = some (.closing, text) := code?_of_closing (.inr rfl) text
    have hname : FieldName.next? ('}' :: text) = .ok (some ([], '}' :: text)) := by
      have hseek : FieldName.seek ('}' :: text) = '}' :: text := by
        rw [FieldName.seek.eq_def]
        rfl
      rw [FieldName.next?, hseek]
      rfl
    refine ⟨⟨some "", .closing, none⟩, ?_, rfl⟩
    rw [GroupKind.closingBracket, next?, if_pos (by decide), hname]
    dsimp only
    rw [read?, hcode, Option.map_some]
    dsimp only
    rw [hcount]

end Token

/-! ## What a layout is read back as -/

/-- The code of a field begins neither with a blank nor with a digit. -/
theorem Field.exists_write_eq_cons (f : Field) :
    ∃ c rest, f.write = c :: rest ∧ Text.isAsciiBlank c = false ∧ c.isDigit = false := by
  cases f with
  | number field =>
    cases field with
    | byte sign => cases sign <;> exact ⟨_, _, rfl, rfl, rfl⟩
    | word sign size order => cases sign <;> cases size <;> exact ⟨_, _, rfl, rfl, rfl⟩
    | real precision order => cases precision <;> exact ⟨_, _, rfl, rfl, rfl⟩
  | text field =>
    cases field with
    | raw | blankPadded | zeroPadded => exact ⟨_, _, rfl, rfl, rfl⟩
    | hex first => cases first <;> exact ⟨_, _, rfl, rfl, rfl⟩
  | terminated => exact ⟨_, _, rfl, rfl, rfl⟩
  | move step => cases step <;> exact ⟨_, _, rfl, rfl, rfl⟩

theorem GroupKind.isDigit_bracket (kind : GroupKind) : kind.bracket.isDigit = false := by
  cases kind <;> rfl

theorem GroupKind.isDigit_closingBracket (kind : GroupKind) :
    kind.closingBracket.isDigit = false := by
  cases kind <;> rfl

theorem GroupKind.isAsciiBlank_bracket (kind : GroupKind) :
    Text.isAsciiBlank kind.bracket = false := by
  cases kind <;> rfl

namespace Layout

/-- A written name does not begin with a digit. -/
theorem ends_writeName_append {inRecord : Bool} {name : Option String}
    (hname : NameFits inRecord name) {text : List Char} (htext : Count.Ends text) :
    Count.Ends (writeName name ++ text) := by
  match inRecord, name, hname with
  | false, none, _ => exact htext
  | true, some name, hname =>
    obtain ⟨c, rest, hc, _, hwrite⟩ := FieldName.IsValid.exists_cons hname
    rw [writeName, hwrite]
    exact Count.ends_cons (FieldName.isDigit_of_isStart hc)

theorem write_field_append (name : Option String) (f : Field) (count : Nat) (rest : Layout)
    (text : List Char) :
    write (.field name f count rest) ++ text =
      writeName name ++ (f.write ++ (Count.write count ++ ' ' :: (rest.write ++ text))) := by
  simp [write]

theorem write_group_append (name : Option String) (kind : GroupKind) (count : Nat)
    (body rest : Layout) (text : List Char) :
    write (.group name kind count body rest) ++ text =
      writeName name ++ ([kind.bracket] ++ (Count.write count ++
        ' ' :: (body.write ++ kind.closingBracket :: ' ' :: (rest.write ++ text)))) := by
  simp [write]

/-- A written layout does not begin with a digit. -/
theorem ends_write_append {inRecord : Bool} {layout : Layout} (h : layout.IsWellFormed inRecord)
    {text : List Char} (htext : Count.Ends text) : Count.Ends (layout.write ++ text) := by
  cases layout with
  | done => exact htext
  | field name f count rest =>
    obtain ⟨c, letters, hwrite, _, hdigit⟩ := f.exists_write_eq_cons
    rw [write_field_append, hwrite]
    exact ends_writeName_append h.1 (Count.ends_cons hdigit)
  | group name kind count body rest =>
    rw [write_group_append]
    exact ends_writeName_append h.1 (Count.ends_cons kind.isDigit_bracket)

variable {limit : Nat} {within : Option GroupKind} {depth : Nat}

/-- A space in front of a text changes nothing. -/
theorem Reads.blank {text left : List Char} {layout : Layout} (hends : Count.Ends text)
    (h : Reads limit within depth text layout left) :
    Reads limit within depth (' ' :: text) layout left := by
  by_cases hrecord : within = some .record
  · subst hrecord
    have hnext : Token.next? true (' ' :: text) = Token.next? true text := by
      rw [Token.next?, FieldName.next?_blank, Token.next?]
      rfl
    cases h with
    | field next code tail => exact .field (hnext.trans next) code tail
    | group next code repeats room inside tail =>
      exact .group (hnext.trans next) code repeats room inside tail
    | closed next code => exact .closed (hnext.trans next) code
    | skipped next code tail => exact .skipped (hnext.trans next) code tail
  · have hnext : Token.next? (within == some .record) (' ' :: text) =
        .ok (some (⟨none, .blank, none⟩, text)) := by
      have hcode : Token.code? (' ' :: text) = some (.blank, text) := by
        cases text with
        | nil => rfl
        | cons d rest =>
          have hpair : Code.ofPair? ' ' d = none := by
            unfold Code.ofPair?
            split <;> rfl
          rw [Token.code?, hpair]
          rfl
      have hfalse : (within == some .record) = false := by simpa using hrecord
      rw [hfalse, Token.next?, if_neg (by decide), Token.read?, hcode, Option.map_some]
      dsimp only
      rw [Count.read_of_ends hends]
    exact .skipped hnext (.inl rfl) h

/-- A well-formed layout is read back in front of any text that ends the place it stands in. -/
theorem reads_write_append {layout : Layout}
    (h : layout.IsWellFormed (within == some .record)) (hdepth : depth + layout.depth ≤ limit)
    {text left : List Char} (htext : Count.Ends text)
    (hend : Reads limit within depth text .done left) :
    Reads limit within depth (layout.write ++ text) layout left := by
  induction layout generalizing within depth text left with
  | done => exact hend
  | field name f count rest ih =>
    obtain ⟨hname, hcount, hrest⟩ := h
    obtain ⟨c, letters, hwrite, hblank, _⟩ := f.exists_write_eq_cons
    have hstart : ∀ d ∈ f.write.head?, Text.isAsciiBlank d = false := by
      rw [hwrite]
      intro d hd
      cases hd
      exact hblank
    have hafter : Count.Ends (' ' :: (rest.write ++ text)) := Count.ends_cons rfl
    have hnext := Token.next?_write hstart (by simp [hwrite])
      (fun d more hd => Token.code?_write_append f hd more) hname hcount hafter
    rw [write_field_append]
    exact .field hnext rfl (.blank (ends_write_append hrest htext) (ih hrest hdepth htext hend))
  | group name kind count body rest ihBody ihRest =>
    obtain ⟨hname, hpositive, hcount, hbody, hrest⟩ := h
    rw [Layout.depth] at hdepth
    have hstart : ∀ d ∈ [kind.bracket].head?, Text.isAsciiBlank d = false := by
      intro d hd
      cases hd
      exact kind.isAsciiBlank_bracket
    have hbehind : Count.Ends (' ' :: (rest.write ++ text)) := Count.ends_cons rfl
    have hclosing : Count.Ends (kind.closingBracket :: ' ' :: (rest.write ++ text)) :=
      Count.ends_cons kind.isDigit_closingBracket
    have hafter : Count.Ends
        (' ' :: (body.write ++ kind.closingBracket :: ' ' :: (rest.write ++ text))) :=
      Count.ends_cons rfl
    have hnext := Token.next?_write hstart (by simp)
      (fun d more hd => Token.code?_bracket kind hd more) hname hcount hafter
    obtain ⟨token, hclose, hcode⟩ := Token.exists_next?_closingBracket kind hbehind
    have hclosed : Reads limit (some kind) (depth + 1)
        (kind.closingBracket :: ' ' :: (rest.write ++ text)) .done (' ' :: (rest.write ++ text)) :=
      .closed hclose hcode
    have hinner : body.IsWellFormed (some kind == some .record) := by cases kind <;> exact hbody
    have hinside := ihBody hinner (by omega) hclosing hclosed
    have htail := ihRest hrest (by omega) htext hend
    rw [write_group_append]
    exact .group hnext rfl (Nat.ne_of_gt hpositive) (by omega)
      (.blank (ends_write_append hbody hclosing) hinside)
      (.blank (ends_write_append hrest htext) htail)

/-- A well-formed layout is read back from its text. -/
theorem parse_write {layout : Layout} (h : layout.IsWellFormed false)
    (hdepth : layout.depth ≤ limit) : parse limit layout.write = .ok layout := by
  have hended : Reads limit none 0 [] .done [] := .ended rfl
  have htop : layout.IsWellFormed (none == some GroupKind.record) := h
  have hreads := reads_write_append htop (by omega) Count.ends_nil hended
  rw [List.append_nil] at hreads
  rw [parse, parseFrom_of_reads hreads]
  rfl

end Layout

namespace Format

/-- Every well-formed layout whose depth is a count has a text, and under the greatest limits that
text is a format with just this layout. -/
theorem ofText_write {layout : Layout} (h : layout.IsWellFormed false)
    (hdepth : layout.depth ≤ Count.greatest) :
    ofText .greatest (String.ofList layout.write) = .ok ⟨String.ofList layout.write, layout⟩ := by
  rw [ofText_eq_ok_iff, String.toList_ofList]
  exact ⟨Layout.parse_write h hdepth, layout.yield_le_greatest, rfl⟩

/-- A record with a list in it, under a name that has a colon and a brace. -/
theorem ofText_write_hidden_brace :
    let layout : Layout := .group none .record 2
      (.field (some "a:\\\x7d") (.number (.word .signed .two .little)) 3
        (.group (some "list") .array 1 (.field none .terminated 10 .done) .done)) .done
    String.ofList layout.write = "\x7b2 a\\:\\\x7d:s<3 list:[1 Z+10 ] \x7d " ∧
      layout.IsWellFormed false ∧ layout.depth ≤ Count.greatest ∧
      ofText .greatest (String.ofList layout.write) = .ok ⟨String.ofList layout.write, layout⟩ := by
  intro layout
  have hformed : layout.IsWellFormed false := by decide
  have hdepth : layout.depth ≤ Count.greatest := by decide
  exact ⟨by decide +kernel, hformed, hdepth, ofText_write hformed hdepth⟩

end Format

end BinaryLayout
