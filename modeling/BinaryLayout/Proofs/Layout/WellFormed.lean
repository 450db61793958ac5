import BinaryLayout.Proofs.Count
import BinaryLayout.Proofs.Layout.Reads
import Mathlib.Data.List.Chain

/-!
# Layouts that a text can stand for

A field name read from a text begins as names do, and a closing brace in it has a backslash right
before it: without one the brace would have ended the record.  The empty name, which is read in
front of a closing brace, never reaches a field or a group, because the brace is no code of either.

`Layout.IsWellFormed` collects what the reader so ensures about names and counts, and
`Reads.isWellFormed` derives it from the rules.
-/

namespace BinaryLayout

/-! ## Names -/

namespace FieldName

/-- A closing brace comes only right behind a backslash. -/
def Hides (before c : Char) : Prop := c = '}' → before = '\\'

instance (before c : Char) : Decidable (Hides before c) :=
  inferInstanceAs (Decidable (_ → _))

/-- What the fields of a record can be called. -/
structure IsValid (name : List Char) : Prop where
  /-- The name begins as names do. -/
  start : name.head?.any isStart = true
  /-- Right before each closing brace stands a backslash. -/
  braces : name.IsChain Hides

instance (name : List Char) : Decidable (IsValid name) :=
  decidable_of_iff (name.head?.any isStart = true ∧ name.IsChain Hides)
    ⟨fun h => ⟨h.1, h.2⟩, fun h => ⟨h.start, h.braces⟩⟩

/-- Reading a character that stands for itself. -/
theorem read?_cons {c : Char} (hcolon : c ≠ ':') (hbrace : c ≠ '}') (hslash : c ≠ '\\')
    (text : List Char) :
    read? (c :: text) = (read? text).map fun (name, rest) => (c :: name, rest) := by
  rw [read?.eq_def]
  simp [hcolon, hbrace, hslash]

/-- One character in front of a name that does not begin with a brace. -/
theorem isChain_cons {c : Char} {name : List Char} (hstart : name.head? ≠ some '}')
    (h : name.IsChain Hides) : (c :: name).IsChain Hides := by
  rw [List.isChain_cons]
  refine ⟨fun d hd hbrace => ?_, h⟩
  subst hbrace
  exact absurd hd hstart

/-- What an escape in front of a name stands for hides its brace. -/
theorem isChain_unescape_append (c : Char) {name : List Char} (hstart : name.head? ≠ some '}')
    (h : name.IsChain Hides) :
    (unescape c ++ name).head? ≠ some '}' ∧ (unescape c ++ name).IsChain Hides := by
  unfold unescape
  split
  · next hc =>
    refine ⟨?_, isChain_cons hstart h⟩
    rcases hc with rfl | rfl <;> exact nofun
  · refine ⟨nofun, ?_⟩
    show ('\\' :: c :: name).IsChain Hides
    rw [List.isChain_cons_cons]
    exact ⟨fun _ => rfl, isChain_cons hstart h⟩

/-- What is read as a name hides its braces. -/
theorem isChain_of_read? {text name rest : List Char} (h : read? text = some (name, rest)) :
    name.head? ≠ some '}' ∧ name.IsChain Hides := by
  fun_induction read? text generalizing name rest with
  | case1 | case3 | case4 => simp at h
  | case2 =>
    obtain ⟨rfl, _⟩ : [] = name ∧ _ := by simpa using h
    exact ⟨by decide, .nil⟩
  | case5 _ _ _ _ ih =>
    obtain ⟨⟨more, left⟩, hread, he⟩ := Option.map_eq_some_iff.1 h
    obtain ⟨hstart, hchain⟩ := ih hread
    cases he
    exact isChain_unescape_append _ hstart hchain
  | case6 c _ _ hbrace _ ih =>
    obtain ⟨⟨more, left⟩, hread, he⟩ := Option.map_eq_some_iff.1 h
    obtain ⟨hstart, hchain⟩ := ih hread
    cases he
    exact ⟨by simpa using hbrace, isChain_cons hstart hchain⟩

/-- The search for a name stops in front of one or of a closing brace. -/
theorem isStart_or_of_seek {text rest : List Char} {c : Char} (h : seek text = c :: rest) :
    isStart c = true ∨ c = '}' := by
  fun_induction seek text with
  | case1 | case3 => cases h
  | case2 d _ hstop =>
    cases h
    simpa using hstop
  | case4 _ _ _ ih | case5 _ _ _ _ ih => exact ih h

theorem ne_of_isStart {c : Char} (h : isStart c = true) : c ≠ ':' ∧ c ≠ '}' ∧ c ≠ '\\' := by
  refine ⟨?_, ?_, ?_⟩ <;> rintro rfl <;> revert h <;> decide

/-- What is read as a name begins like its text, if that begins as names do. -/
theorem head?_of_read? {c : Char} {text name rest : List Char} (hc : isStart c = true)
    (h : read? (c :: text) = some (name, rest)) : name.head? = some c := by
  obtain ⟨hcolon, hbrace, hslash⟩ := ne_of_isStart hc
  rw [read?_cons hcolon hbrace hslash] at h
  obtain ⟨_, _, he⟩ := Option.map_eq_some_iff.1 h
  cases he
  rfl

/-- What is read as a name is valid if its text begins as names do. -/
theorem isValid_of_read? {c : Char} {text name rest : List Char} (hc : isStart c = true)
    (h : read? (c :: text) = some (name, rest)) : IsValid name := by
  refine ⟨?_, (isChain_of_read? h).2⟩
  rw [head?_of_read? hc h]
  exact hc

theorem seek_suffix (text : List Char) : seek text <:+ text := by
  fun_induction seek text with
  | case1 | case2 => exact List.suffix_rfl
  | case3 => exact List.nil_suffix
  | case4 _ _ _ ih => exact ih.trans (List.suffix_cons_iff.2 (.inr (List.suffix_cons _ _)))
  | case5 _ _ _ _ ih => exact ih.trans (List.suffix_cons _ _)

/-- What is left behind a name stands behind a colon. -/
theorem colon_suffix_of_read? {text name rest : List Char} (h : read? text = some (name, rest)) :
    ':' :: rest <:+ text := by
  fun_induction read? text generalizing name rest with
  | case1 | case3 | case4 => cases h
  | case2 =>
    cases h
    exact List.suffix_rfl
  | case5 _ _ _ _ ih =>
    obtain ⟨⟨more, left⟩, hread, he⟩ := Option.map_eq_some_iff.1 h
    cases he
    exact (ih hread).trans (List.suffix_cons_iff.2 (.inr (List.suffix_cons _ _)))
  | case6 _ _ _ _ _ ih =>
    obtain ⟨⟨more, left⟩, hread, he⟩ := Option.map_eq_some_iff.1 h
    cases he
    exact (ih hread).trans (List.suffix_cons _ _)

/-- Either the search for a name stops in front of a closing brace, or it finds a valid name with
a colon behind it and passes over blanks. -/
theorem next?_cases {text name rest : List Char} (h : next? text = .ok (some (name, rest))) :
    (∃ behind, rest = '}' :: behind ∧ rest <:+ text) ∨
      IsValid name ∧
        ∃ after, ':' :: after <:+ text ∧ rest = after.dropWhile Text.isAsciiBlank := by
  have hsuffix := seek_suffix text
  unfold next? at h
  split at h
  · cases h
  · next c tail hseek =>
    rw [hseek] at hsuffix
    split at h
    · next hbrace =>
      cases h
      exact .inl ⟨tail, by rw [hbrace], hsuffix⟩
    · next hbrace =>
      split at h
      · next hread =>
        cases h
        have hstart : isStart c = true := (isStart_or_of_seek hseek).resolve_right hbrace
        exact .inr ⟨isValid_of_read? hstart hread, _,
          (colon_suffix_of_read? hread).trans hsuffix, rfl⟩
      · cases h

end FieldName

/-! ## Tokens -/

namespace Token

/-- A token is its name, a code and the count behind it. -/
theorem read?_eq_some {name : Option String} {text rest : List Char} {token : Token}
    (h : read? name text = some (token, rest)) :
    token.name = name ∧
      ∃ behind,
        code? text = some (token.code, behind) ∧ Count.read behind = (token.count, rest) := by
  obtain ⟨⟨code, behind⟩, hcode, he⟩ := Option.map_eq_some_iff.1 h
  cases he
  exact ⟨rfl, behind, hcode, rfl⟩

/-- A closing bracket closes, whatever comes behind it. -/
theorem code?_of_closing {c : Char} (hc : c = ']' ∨ c = '}') (text : List Char) :
    code? (c :: text) = some (.closing, text) := by
  have hchar : Code.ofChar c = .closing := by rcases hc with rfl | rfl <;> rfl
  cases text with
  | nil => rw [code?, hchar]
  | cons d rest =>
    have hpair : Code.ofPair? c d = none := by
      rcases hc with rfl | rfl <;> (unfold Code.ofPair?; split <;> rfl)
    rw [code?, hpair]
    dsimp only
    rw [hchar]

end Token

namespace Layout

/-- Whether something in a layout is called as its place asks: inside a record it has a valid name,
and elsewhere it has none. -/
def NameFits : Bool → Option String → Prop
  | true, some name => FieldName.IsValid name.toList
  | false, none => True
  | _, _ => False

instance : (inRecord : Bool) → (name : Option String) → Decidable (NameFits inRecord name)
  | true, some name => inferInstanceAs (Decidable (FieldName.IsValid name.toList))
  | false, none => inferInstanceAs (Decidable True)
  | true, none | false, some _ => inferInstanceAs (Decidable False)

end Layout

namespace Token

variable {inRecord : Bool} {text rest : List Char} {token : Token}

/-- A token that opens a group or stands for a field is called as its place asks. -/
theorem nameFits_of_next? (h : next? inRecord text = .ok (some (token, rest)))
    (hcode : token.code ≠ .closing) : Layout.NameFits inRecord token.name := by
  unfold next? at h
  split at h
  · next hrecord =>
    subst hrecord
    split at h
    · cases h
    · cases h
    · next name behind hname =>
      obtain ⟨hname', _, hread, _⟩ := read?_eq_some (Except.ok.inj h)
      rw [hname']
      rcases FieldName.next?_cases hname with ⟨_, rfl, _⟩ | ⟨hvalid, _⟩
      · have hclosing : Code.closing = token.code := by
          rw [code?_of_closing (.inr rfl)] at hread
          exact congrArg Prod.fst (Option.some.inj hread)
        exact absurd hclosing.symm hcode
      · show FieldName.IsValid (String.ofList name).toList
        rw [String.toList_ofList]
        exact hvalid
  · next hrecord =>
    obtain ⟨hname, _⟩ := read?_eq_some (Except.ok.inj h)
    rw [hname, Bool.eq_false_iff.2 hrecord]
    trivial

/-- The count of a token is a count, also where it is not written. -/
theorem count_le_of_next? (h : next? inRecord text = .ok (some (token, rest))) :
    token.count.getD 1 ≤ Count.greatest := by
  have hread {name : Option String} {text : List Char}
      (h : read? name text = some (token, rest)) : token.count.getD 1 ≤ Count.greatest := by
    obtain ⟨_, behind, _, hcount⟩ := read?_eq_some h
    cases hc : token.count with
    | none => decide
    | some n =>
      rw [hc] at hcount
      exact Count.le_greatest_of_read hcount
  unfold next? at h
  split at h
  · split at h
    · cases h
    · cases h
    · exact hread (Except.ok.inj h)
  · exact hread (Except.ok.inj h)

end Token

/-! ## Layouts -/

namespace Layout

/-- Whether a text can stand for the layout, directly inside a record or elsewhere: everything is
called as its place asks, every group is repeated, and all counts can be written. -/
def IsWellFormed : Bool → Layout → Prop
  | _, .done => True
  | inRecord, .field name _ count rest =>
    NameFits inRecord name ∧ count ≤ Count.greatest ∧ rest.IsWellFormed inRecord
  | inRecord, .group name kind count body rest =>
    NameFits inRecord name ∧ 1 ≤ count ∧ count ≤ Count.greatest ∧
      body.IsWellFormed (kind == .record) ∧ rest.IsWellFormed inRecord

instance decidableIsWellFormed :
    (inRecord : Bool) → (layout : Layout) → Decidable (layout.IsWellFormed inRecord)
  | _, .done => inferInstanceAs (Decidable True)
  | inRecord, .field _ _ _ rest =>
    have := decidableIsWellFormed inRecord rest
    inferInstanceAs (Decidable (_ ∧ _ ∧ _))
  | inRecord, .group _ kind _ body rest =>
    have := decidableIsWellFormed (kind == .record) body
    have := decidableIsWellFormed inRecord rest
    inferInstanceAs (Decidable (_ ∧ _ ∧ _ ∧ _ ∧ _))

/-- What is read is well formed. -/
theorem Reads.isWellFormed {limit : Nat} {within : Option GroupKind} {depth : Nat}
    {text left : List Char} {layout : Layout} (h : Reads limit within depth text layout left) :
    layout.IsWellFormed (within == some .record) := by
  induction h with
  | ended | closed => trivial
  | field next code _ ih =>
    refine ⟨Token.nameFits_of_next? next ?_, Token.count_le_of_next? next, ih⟩
    rw [code]
    exact nofun
  | @group _ _ _ _ _ kind _ _ _ _ next code repeats _ _ _ ihBody ihTail =>
    refine ⟨Token.nameFits_of_next? next ?_, Nat.pos_of_ne_zero repeats,
      Token.count_le_of_next? next, ?_, ihTail⟩
    · rw [code]
      exact nofun
    · cases kind <;> exact ihBody
  | skipped _ _ _ ih => exact ih

end Layout

end BinaryLayout
