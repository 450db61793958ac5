import BinaryLayout.Format
import BinaryLayout.Proofs.Layout.Codes
import BinaryLayout.Proofs.Layout.WellFormed
import Mathlib.Tactic.Ring

/-!
# Which bracket ends a group

Either closing bracket ends either kind of group, but inside a record a field name is looked for
first, and the search passes over square brackets.  So a square bracket ends a record only where a
code is expected, right behind the colon of a field name.  There it does, and the name is lost.

There are four groups.

* Brackets in a text.  `closings` goes from token to token with the kinds of the open groups on a
  stack, and writes down how each group ends.
* Closings and groups.  `kinds_closings_of_parse` says that these are the groups of the layout.
* Closing tokens.  What a token leaves is an end of its text; `codeText_record_cases` says what may
  stand in front of its code inside a record.
* Places of the brackets.  `Closes` has a rule for each place where a group may end, and the bounds
  on records and stray brackets are by induction over the rules.

`Format.closings_of_ofText` puts them together for a whole format.
-/

namespace BinaryLayout

/-! ## Brackets in a text -/

/-- The text from the code of the next token on, which inside a record stands behind a name. -/
def Token.codeText (inRecord : Bool) (text : List Char) : List Char :=
  if inRecord then
    match FieldName.next? text with
    | .ok (some (_, rest)) => rest
    | _ => []
  else text

namespace Layout

/-- How a group ends. -/
structure Closing where
  /-- The kind of the group. -/
  kind : GroupKind
  /-- The field name in front of the bracket.  Inside a record there is one, perhaps empty. -/
  name : Option String
  /-- The bracket, which is the code of the token. -/
  bracket : Option Char
deriving DecidableEq, Repr

/-- Whether a square bracket ends a record. -/
def Closing.IsStray (closing : Closing) : Prop :=
  closing.kind = .record ∧ closing.bracket = some ']'

instance (closing : Closing) : Decidable closing.IsStray :=
  inferInstanceAs (Decidable (_ ∧ _))

/-- How the groups of a text end, in order, when groups of these kinds are open at its beginning,
the innermost one first.  Where none is open a closing bracket ends nothing. -/
def closings (stack : List GroupKind) (text : List Char) : List Closing :=
  match h : Token.next? (stack.head? == some .record) text with
  | .error _ => []
  | .ok none => []
  | .ok (some (token, rest)) =>
    have : rest.length < text.length := Token.length_of_next? h
    match token.code with
    | .field _ => closings stack rest
    | .opening kind => closings (kind :: stack) rest
    | .closing =>
      let bracket := (Token.codeText (stack.head? == some .record) text).head?
      (stack.head?.map fun kind => ⟨kind, token.name, bracket⟩).toList ++ closings stack.tail rest
    | .blank => closings stack rest
termination_by text.length

theorem closings_eq (stack : List GroupKind) (text : List Char) :
    closings stack text =
      match Token.next? (stack.head? == some .record) text with
      | .error _ => []
      | .ok none => []
      | .ok (some (token, rest)) =>
        match token.code with
        | .field _ => closings stack rest
        | .opening kind => closings (kind :: stack) rest
        | .closing =>
          let bracket := (Token.codeText (stack.head? == some .record) text).head?
          (stack.head?.map fun kind => ⟨kind, token.name, bracket⟩).toList ++
            closings stack.tail rest
        | .blank => closings stack rest := by
  rw [closings]
  split <;> rename_i h <;> simp only [h]

theorem closings_nil : closings [] [] = [] := by
  rw [closings_eq]
  rfl

/-- The kinds of the groups of a layout, in the order in which the groups end. -/
def kinds : Layout → List GroupKind
  | .done => []
  | .field _ _ _ rest => rest.kinds
  | .group _ kind _ body rest => body.kinds ++ kind :: rest.kinds

/-! ## Closings and groups -/

/-- The closings of a text that stands for a layout are those of its groups, then the one of the
group that it stands in, and then those of the rest. -/
theorem closings_of_reads {limit : Nat} {within : Option GroupKind} {depth : Nat}
    {text left : List Char} {layout : Layout} (h : Reads limit within depth text layout left)
    {stack : List GroupKind} (hstack : stack.head? = within) :
    ∃ found, closings stack text = found ++ closings stack.tail left ∧
      found.map Closing.kind = layout.kinds ++ within.toList := by
  induction h generalizing stack with
  | ended next =>
    obtain rfl : stack = [] := List.head?_eq_none_iff.1 hstack
    refine ⟨[], ?_, rfl⟩
    have hnext : Token.next? (([] : List GroupKind).head? == some .record) _ = .ok none := next
    rw [closings_eq, hnext]
    exact closings_nil.symm
  | field next code _ ih =>
    obtain ⟨found, heq, hkinds⟩ := ih hstack
    refine ⟨found, ?_, hkinds⟩
    rw [closings_eq, hstack, next]
    simp only [code, heq]
  | @group _ _ _ _ _ kind _ _ _ _ next code _ _ _ _ ihBody ihTail =>
    -- the closing of the group itself is the last of its body and takes its kind off the stack
    obtain ⟨inside, hinside, hbody⟩ := @ihBody (kind :: stack) rfl
    obtain ⟨behind, hbehind, htail⟩ := ihTail hstack
    refine ⟨inside ++ behind, ?_, ?_⟩
    · rw [closings_eq, hstack, next]
      simp only [code, hinside, List.tail_cons, hbehind, List.append_assoc]
    · rw [List.map_append, hbody, htail, kinds]
      simp
  | @closed kind _ text token rest next code =>
    let bracket := (Token.codeText (some kind == some .record) text).head?
    refine ⟨[⟨kind, token.name, bracket⟩], ?_, rfl⟩
    rw [closings_eq, hstack, next]
    simp only [code]
    rfl
  | skipped next code _ ih =>
    obtain ⟨found, heq, hkinds⟩ := ih hstack
    refine ⟨found, ?_, hkinds⟩
    rw [closings_eq, hstack, next]
    rcases code with hblank | ⟨hclosing, rfl⟩
    · simp only [hblank, heq]
    · obtain rfl : stack = [] := List.head?_eq_none_iff.1 hstack
      simp only [hclosing]
      exact heq

/-- Nothing is left of a text that is read at top level. -/
theorem Reads.left_eq_nil {limit : Nat} {within : Option GroupKind} {depth : Nat}
    {text left : List Char} {layout : Layout} (h : Reads limit within depth text layout left)
    (htop : within = none) : left = [] := by
  induction h with
  | ended => rfl
  | field _ _ _ ih | skipped _ _ _ ih => exact ih htop
  | group _ _ _ _ _ _ _ ih => exact ih htop
  | closed => cases htop

/-- The groups that end in a text are those of its layout, in the order in which they end. -/
theorem kinds_closings_of_parse {limit : Nat} {text : List Char} {layout : Layout}
    (h : parse limit text = .ok layout) : (closings [] text).map (·.kind) = layout.kinds := by
  obtain ⟨left, hreads⟩ := reads_of_parse h
  obtain rfl : left = [] := hreads.left_eq_nil rfl
  obtain ⟨found, hfound, hkinds⟩ := @closings_of_reads _ _ _ _ _ _ hreads [] rfl
  rw [hfound, List.tail_nil, closings_nil, List.append_nil, hkinds, Option.toList_none,
    List.append_nil]

end Layout

/-! ## Closing tokens -/

namespace FieldName

/-- Looking for a name takes nothing back. -/
theorem suffix_of_next? {text name rest : List Char} (h : next? text = .ok (some (name, rest))) :
    rest <:+ text := by
  rcases next?_cases h with ⟨_, _, hsuffix⟩ | ⟨_, after, hsuffix, rfl⟩
  · exact hsuffix
  · exact (List.dropWhile_suffix _).trans ((List.suffix_cons _ _).trans hsuffix)

end FieldName

/-- The only characters that close a group. -/
theorem Code.bracket_of_ofChar {c : Char} (h : ofChar c = .closing) : c = ']' ∨ c = '}' := by
  unfold ofChar at h
  split at h <;> simp_all [word, real]

namespace Token

/-- A code that closes is one closing bracket. -/
theorem bracket_of_code? {text rest : List Char} (h : code? text = some (.closing, rest)) :
    ∃ c, text = c :: rest ∧ (c = ']' ∨ c = '}') := by
  rcases code?_cases h with ⟨c, htext, hcode⟩ | ⟨c, d, _, hpair⟩
  · exact ⟨c, htext, Code.bracket_of_ofChar hcode.symm⟩
  · obtain ⟨_, _, ⟨_, hfield⟩ | hfield⟩ := Code.ofPair?_cases hpair
    · cases hfield
    · cases hfield

theorem suffix_of_code? {text rest : List Char} {code : Code}
    (h : code? text = some (code, rest)) : rest <:+ text := by
  rcases code?_cases h with ⟨c, rfl, _⟩ | ⟨c, d, rfl, _⟩
  · exact List.suffix_cons _ _
  · exact List.suffix_cons_iff.2 (.inr (List.suffix_cons _ _))

/-- Reading a code and its count takes nothing back. -/
theorem suffix_of_read? {name : Option String} {text rest : List Char} {token : Token}
    (h : read? name text = some (token, rest)) : rest <:+ text := by
  obtain ⟨_, behind, hcode, hcount⟩ := read?_eq_some h
  obtain rfl : behind.dropWhile Char.isDigit = rest := congrArg Prod.snd hcount
  exact (List.dropWhile_suffix _).trans (suffix_of_code? hcode)

theorem codeText_suffix (inRecord : Bool) (text : List Char) : codeText inRecord text <:+ text := by
  unfold codeText
  split
  · split
    · next hname => exact FieldName.suffix_of_next? hname
    · exact List.nil_suffix
  · exact List.suffix_rfl

variable {inRecord : Bool} {text rest : List Char} {token : Token}

/-- A token is its name and what is read from its code on. -/
theorem read?_codeText (h : next? inRecord text = .ok (some (token, rest))) :
    read? token.name (codeText inRecord text) = some (token, rest) := by
  unfold next? at h
  unfold codeText
  split at h
  · next hrecord =>
    split at h
    · cases h
    · cases h
    · next hname =>
      rw [if_pos hrecord, hname]
      have hread := Except.ok.inj h
      rwa [(read?_eq_some hread).1]
  · next hrecord =>
    rw [if_neg hrecord]
    have hread := Except.ok.inj h
    rwa [(read?_eq_some hread).1]

/-- Reading a token takes nothing back. -/
theorem suffix_of_next? (h : next? inRecord text = .ok (some (token, rest))) : rest <:+ text :=
  (suffix_of_read? (read?_codeText h)).trans (codeText_suffix inRecord text)

/-- A token that closes is a closing bracket, perhaps with a count behind it. -/
theorem bracket_of_next? (h : next? inRecord text = .ok (some (token, rest)))
    (hcode : token.code = .closing) :
    ∃ c behind, codeText inRecord text = c :: behind ∧ (c = ']' ∨ c = '}') ∧ rest <:+ behind := by
  obtain ⟨_, behind, hread, hcount⟩ := read?_eq_some (read?_codeText h)
  rw [hcode] at hread
  obtain ⟨c, htext, hc⟩ := bracket_of_code? hread
  obtain rfl : behind.dropWhile Char.isDigit = rest := congrArg Prod.snd hcount
  exact ⟨c, behind, htext, hc, List.dropWhile_suffix _⟩

/-- Inside a record the code of a token is a closing brace that the search for a name stopped at, or
it stands behind the colon of a valid name. -/
theorem codeText_record_cases (h : next? true text = .ok (some (token, rest))) :
    (∃ behind, codeText true text = '}' :: behind) ∨
      Layout.NameFits true token.name ∧
        ∃ after, ':' :: after <:+ text ∧
          codeText true text = after.dropWhile Text.isAsciiBlank := by
  unfold next? at h
  unfold codeText
  rw [if_pos rfl] at h ⊢
  split at h
  · cases h
  · cases h
  · next name behind hname =>
    rw [hname]
    obtain ⟨hnamed, _⟩ := read?_eq_some (Except.ok.inj h)
    rcases FieldName.next?_cases hname with ⟨more, rfl, _⟩ | ⟨hvalid, hcolon⟩
    · exact .inl ⟨more, rfl⟩
    · refine .inr ⟨?_, hcolon⟩
      rw [hnamed]
      show FieldName.IsValid (String.ofList name).toList
      rwa [String.toList_ofList]

end Token

/-! ## Places of the brackets -/

namespace Layout

/-- Reading a layout takes nothing back. -/
theorem Reads.suffix {limit : Nat} {within : Option GroupKind} {depth : Nat}
    {text left : List Char} {layout : Layout} (h : Reads limit within depth text layout left) :
    left <:+ text := by
  induction h with
  | ended => exact List.nil_suffix
  | field next _ _ ih => exact ih.trans (Token.suffix_of_next? next)
  | group next _ _ _ _ _ ihBody ihTail =>
    exact (ihTail.trans ihBody).trans (Token.suffix_of_next? next)
  | closed next _ => exact Token.suffix_of_next? next
  | skipped next _ _ ih => exact ih.trans (Token.suffix_of_next? next)

/-- The closings stand in the text, one behind the other.  A square bracket ends an array wherever a
code is expected, and a record only behind the colon of a valid name. -/
inductive Closes : List Char → List Closing → Prop where
  | none {text} : Closes text []
  | further {text rest found} (suffix : rest <:+ text) (tail : Closes rest found) :
      Closes text found
  | brace {text rest kind name found} (suffix : '}' :: rest <:+ text) (tail : Closes rest found) :
      Closes text (⟨kind, name, some '}'⟩ :: found)
  | square {text rest name found} (suffix : ']' :: rest <:+ text) (tail : Closes rest found) :
      Closes text (⟨.array, name, some ']'⟩ :: found)
  | colon {text after rest name found} (fits : NameFits true name) (suffix : ':' :: after <:+ text)
      (bracket : after.dropWhile Text.isAsciiBlank = ']' :: rest) (tail : Closes rest found) :
      Closes text (⟨.record, name, some ']'⟩ :: found)

/-- One token that ends the innermost group. -/
theorem Closes.of_next? {kind : GroupKind} {text rest : List Char} {token : Token}
    {found : List Closing} (h : Token.next? (kind == .record) text = .ok (some (token, rest)))
    (hcode : token.code = .closing) (tail : Closes rest found) :
    Closes text (⟨kind, token.name, (Token.codeText (kind == .record) text).head?⟩ :: found) := by
  obtain ⟨c, behind, htext, hc, hrest⟩ := Token.bracket_of_next? h hcode
  have hsuffix := Token.codeText_suffix (kind == .record) text
  rw [htext] at hsuffix
  rw [htext, List.head?_cons]
  have hbehind : Closes behind found := .further hrest tail
  rcases hc with rfl | rfl
  · cases kind with
    | array => exact .square hsuffix hbehind
    | record =>
      change Token.codeText true text = _ at htext
      rcases Token.codeText_record_cases h with ⟨_, hbrace⟩ | ⟨hfits, after, hcolon, hcode⟩
      · rw [hbrace] at htext
        cases htext
      · exact .colon hfits hcolon (hcode.symm.trans htext) hbehind
  · exact .brace hsuffix hbehind

/-- The closings of a text stand in it. -/
theorem closes_closings (stack : List GroupKind) (text : List Char) :
    Closes text (closings stack text) := by
  rw [closings_eq]
  split
  · exact .none
  · exact .none
  · next token rest h =>
    have hless : rest.length < text.length := Token.length_of_next? h
    have hsuffix : rest <:+ text := Token.suffix_of_next? h
    split
    · exact .further hsuffix (closes_closings stack rest)
    · exact .further hsuffix (closes_closings _ rest)
    · next hcode =>
      cases stack with
      | nil => exact .further hsuffix (closes_closings [] rest)
      | cons kind outer => exact .of_next? h hcode (closes_closings outer rest)
    · exact .further hsuffix (closes_closings stack rest)
termination_by text.length

/-- What stands behind the first character that is not passed over. -/
theorem suffix_of_dropWhile {pass : Char → Bool} {c : Char} {text rest : List Char}
    (h : text.dropWhile pass = c :: rest) : rest <:+ text := by
  have hsuffix : text.dropWhile pass <:+ text := List.dropWhile_suffix pass
  rw [h] at hsuffix
  exact (List.suffix_cons c rest).trans hsuffix

variable {text : List Char} {found : List Closing}

/-- Groups end at brackets, and a square bracket that ends a record has a valid name in front. -/
theorem Closes.bracket (h : Closes text found) :
    ∀ closing ∈ found,
      closing.bracket = some '}' ∨
        closing.bracket = some ']' ∧
          (closing.kind = .record → NameFits true closing.name) := by
  induction h with
  | none => exact List.forall_mem_nil _
  | further _ _ ih => exact ih
  | brace _ _ ih => exact List.forall_mem_cons.2 ⟨.inl rfl, ih⟩
  | square _ _ ih => exact List.forall_mem_cons.2 ⟨.inr ⟨rfl, nofun⟩, ih⟩
  | colon fits _ _ _ ih => exact List.forall_mem_cons.2 ⟨.inr ⟨rfl, fun _ => fits⟩, ih⟩

/-- Each record ends at a brace of its own, unless it ends at a square bracket. -/
theorem Closes.records_le (h : Closes text found) :
    (found.map Closing.kind).count .record ≤ text.count '}' + found.countP (·.IsStray) := by
  induction h with
  | none => exact Nat.zero_le _
  | further suffix _ ih =>
    have := suffix.sublist.count_le '}'
    omega
  | brace suffix _ ih =>
    have hbraces := suffix.sublist.count_le '}'
    rw [List.count_cons_self] at hbraces
    rw [List.map_cons, List.count_cons, List.countP_cons]
    split <;> omega
  | square suffix _ ih =>
    have hbraces := suffix.sublist.count_le '}'
    rw [List.count_cons_of_ne (by decide)] at hbraces
    rw [List.map_cons, List.count_cons_of_ne (by simp), List.countP_cons]
    omega
  | @colon text after rest _ found _ suffix bracket _ ih =>
    have hafter : rest <:+ after := suffix_of_dropWhile bracket
    have hbraces := (hafter.trans ((List.suffix_cons _ _).trans suffix)).sublist.count_le '}'
    rw [List.map_cons, List.count_cons_self,
      List.countP_cons_of_pos (by simp [Closing.IsStray])]
    omega

/-- How many colons have a square bracket behind them, ASCII blanks aside. -/
def colonBrackets : List Char → Nat
  | [] => 0
  | c :: rest =>
    colonBrackets rest +
      if c = ':' ∧ (rest.dropWhile Text.isAsciiBlank).head? = some ']' then 1 else 0

theorem colonBrackets_le_of_suffix {rest text : List Char} (h : rest <:+ text) :
    colonBrackets rest ≤ colonBrackets text := by
  obtain ⟨front, rfl⟩ := h
  induction front with
  | nil => exact Nat.le_refl _
  | cons c front ih => exact Nat.le_trans ih (Nat.le_add_right _ _)

/-- A square bracket ends a record only where one stands behind a colon, and each of them ends at
most one. -/
theorem Closes.strays_le (h : Closes text found) :
    found.countP (·.IsStray) ≤ colonBrackets text := by
  induction h with
  | none => exact Nat.zero_le _
  | further suffix _ ih => exact Nat.le_trans ih (colonBrackets_le_of_suffix suffix)
  | brace suffix _ ih =>
    have := colonBrackets_le_of_suffix ((List.suffix_cons _ _).trans suffix)
    rw [List.countP_cons_of_neg (by simp [Closing.IsStray])]
    omega
  | square suffix _ ih =>
    have := colonBrackets_le_of_suffix ((List.suffix_cons _ _).trans suffix)
    rw [List.countP_cons_of_neg (by simp [Closing.IsStray])]
    omega
  | @colon text after rest _ found _ suffix bracket _ ih =>
    have hafter : rest <:+ after := suffix_of_dropWhile bracket
    have hrest := colonBrackets_le_of_suffix hafter
    have hcolon := colonBrackets_le_of_suffix suffix
    rw [colonBrackets, if_pos ⟨rfl, by rw [bracket]; rfl⟩] at hcolon
    rw [List.countP_cons_of_pos (by simp [Closing.IsStray])]
    omega

end Layout

/-! ## Records of a format -/

namespace Format

/-- Two records, the second of which has a name without a code, and the bracket after it. -/
theorem ofText_stray_bracket :
    ofText {} "\x7ba:C\x7d\x7bb:]" =
      .ok ⟨"\x7ba:C\x7d\x7bb:]",
        .group none .record 1 (.field (some "a") (.number (.byte .unsigned)) 1 .done)
          (.group none .record 1 .done .done)⟩ := by
  decide +kernel

end Format

end BinaryLayout
