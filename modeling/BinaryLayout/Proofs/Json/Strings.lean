import BinaryLayout.Json.Quoted
import BinaryLayout.Json.Quoted.Reader

/-!
# Strings and white space in JSON texts

Escaping loses nothing: whatever characters a string has, its text between quotes reads back as
that string, and nothing behind the closing quote is touched (`readString_quoted`).  So the quotes
that begin and end strings can be told from all others, and with them the white space that belongs
to a string from the white space that only stands between the parts of a text.

There are three groups.

* Escapes.  `escape_cases` is the one place that goes through the forms of an escape.
* Strings.  What is written for a string is read back.
* White space.  `closeUp` takes it away outside strings; `closeUp_quote` keeps every string as it
  is.
-/

namespace BinaryLayout.Json

/-! ## Escapes -/

/-- Whether a character stands for itself inside quotes. -/
def StandsForItself (c : Char) : Prop := c ≠ '"' ∧ c ≠ '\\' ∧ 0x20 ≤ c.toNat

instance (c : Char) : Decidable (StandsForItself c) :=
  inferInstanceAs (Decidable (c ≠ '"' ∧ c ≠ '\\' ∧ 0x20 ≤ c.toNat))

theorem standsForItself_digitChar : ∀ n < 16, StandsForItself (Nat.digitChar n) := by
  unfold StandsForItself
  decide

theorem hexValue?_digitChar : ∀ n < 16, hexValue? (Nat.digitChar n) = some n := by decide

theorem utf8ByteSize_digits : ∀ m < 2, ∀ n < 16,
    (String.ofList ['0', '0', Nat.digitChar m, Nat.digitChar n]).utf8ByteSize = 4 := by
  decide

theorem readUnit_digits {m n : Nat} (hm : m < 2) (hn : n < 16) (text : List Char) :
    readUnit ('0' :: '0' :: Nat.digitChar m :: Nat.digitChar n :: text) =
      .ok (16 * m + n, text) := by
  have hzero : hexValue? '0' = some 0 := rfl
  have hsize : ¬ (String.ofList ['0', '0', Nat.digitChar m, Nat.digitChar n]).utf8ByteSize < 4 := by
    rw [utf8ByteSize_digits m hm n hn]
    decide
  rw [readUnit]
  show (if (String.ofList ['0', '0', Nat.digitChar m, Nat.digitChar n]).utf8ByteSize < 4 then _
    else _) = _
  rw [if_neg hsize, hzero, hexValue?_digitChar m (by omega), hexValue?_digitChar n hn]
  dsimp only
  congr 2
  omega

theorem readEscaped_unit {c : Char} (h : c.toNat < 0x20) (text : List Char) :
    readEscaped ('u' :: '0' :: '0' :: Nat.digitChar (c.toNat / 16) ::
      Nat.digitChar (c.toNat % 16) :: text) = .ok (c, text) := by
  have hunit := readUnit_digits (m := c.toNat / 16) (n := c.toNat % 16) (by omega) (by omega) text
  have htrailing : isTrailing c.toNat = false := by
    rw [isTrailing, decide_eq_false (by omega), Bool.false_and]
  have hleading : isLeading c.toNat = false := by
    rw [isLeading, decide_eq_false (by omega), Bool.false_and]
  rw [Nat.div_add_mod] at hunit
  simp [readEscaped, readEscape, hunit, htrailing, hleading]

/-- Whether the characters behind a backslash stand for `c`.  A quote or a backslash can only be
the first of them. -/
def IsEscape (c : Char) (code : List Char) : Prop :=
  ∃ d tail, code = d :: tail ∧ 0x20 ≤ d.toNat ∧ (∀ e ∈ tail, StandsForItself e) ∧
    ∀ text, readEscaped (code ++ text) = .ok (c, text)

theorem isEscape_letter {c d e : Char} (hc : c = d) (he : 0x20 ≤ e.toNat)
    (hread : ∀ text, readEscaped (e :: text) = .ok (d, text)) : IsEscape c [e] := by
  subst hc
  exact ⟨e, [], rfl, he, fun _ h => absurd h List.not_mem_nil, hread⟩

theorem isEscape_unit {c : Char} (h : c.toNat < 0x20) :
    IsEscape c ['u', '0', '0', Nat.digitChar (c.toNat / 16), Nat.digitChar (c.toNat % 16)] := by
  refine ⟨'u', _, rfl, by decide, ?_, readEscaped_unit h⟩
  simp only [List.forall_mem_cons]
  refine ⟨standsForItself_digitChar 0 (by decide), standsForItself_digitChar 0 (by decide),
    standsForItself_digitChar _ (by omega), standsForItself_digitChar _ (by omega), ?_⟩
  exact fun _ h => absurd h List.not_mem_nil

/-- A character is written as an escape that stands for it, or as itself. -/
theorem escape_cases (c : Char) :
    (∃ code, escape c = '\\' :: code ∧ IsEscape c code) ∨ escape c = [c] ∧ StandsForItself c := by
  rw [escape]
  split
  · next h => exact .inl ⟨_, rfl, isEscape_letter h (by decide) fun _ => rfl⟩
  split
  · next h => exact .inl ⟨_, rfl, isEscape_letter h (by decide) fun _ => rfl⟩
  split
  · next h => exact .inl ⟨_, rfl, isEscape_letter h (by decide) fun _ => rfl⟩
  split
  · next h => exact .inl ⟨_, rfl, isEscape_letter h (by decide) fun _ => rfl⟩
  split
  · next h => exact .inl ⟨_, rfl, isEscape_letter h (by decide) fun _ => rfl⟩
  split
  · next h => exact .inl ⟨_, rfl, isEscape_letter h (by decide) fun _ => rfl⟩
  split
  · next h => exact .inl ⟨_, rfl, isEscape_letter h (by decide) fun _ => rfl⟩
  split
  · next h => exact .inl ⟨_, rfl, isEscape_unit h⟩
  · next hquote hbackslash _ _ _ _ _ hlow =>
    exact .inr ⟨rfl, hquote, hbackslash, Nat.le_of_not_lt hlow⟩

/-! ## Strings -/

theorem readString_backslash {c : Char} {text left s rest : List Char}
    (h : readEscaped text = .ok (c, left)) (hs : readString left = .ok (s, rest)) :
    readString ('\\' :: text) = .ok (c :: s, rest) := by
  rw [readString, if_neg (by decide), if_pos rfl]
  split
  · next he => simp [h] at he
  · next d left' he =>
    rw [h] at he
    obtain ⟨rfl, rfl⟩ := Prod.mk.inj (Except.ok.inj he)
    rw [hs]

theorem readString_cons {c : Char} {text s rest : List Char} (h : StandsForItself c)
    (hs : readString text = .ok (s, rest)) : readString (c :: text) = .ok (c :: s, rest) := by
  obtain ⟨hquote, hbackslash, hlow⟩ := h
  rw [readString, if_neg hquote, if_neg hbackslash, if_neg (Nat.not_lt.2 hlow), hs]

theorem readString_escape {c : Char} {text s rest : List Char}
    (hs : readString text = .ok (s, rest)) :
    readString (escape c ++ text) = .ok (c :: s, rest) := by
  rcases escape_cases c with ⟨code, he, _, _, _, _, _, hread⟩ | ⟨he, hself⟩
  · rw [he]
    exact readString_backslash (hread text) hs
  · rw [he]
    exact readString_cons hself hs

/-- A string is read back, up to its closing quote. -/
theorem readString_quoted (s rest : List Char) :
    readString (s.flatMap escape ++ '"' :: rest) = .ok (s, rest) := by
  induction s with
  | nil => rw [List.flatMap_nil, List.nil_append, readString, if_pos rfl]
  | cons c s ih =>
    rw [List.flatMap_cons, List.append_assoc]
    exact readString_escape ih

/-- No control character stands in the text of a string. -/
theorem le_toNat_of_mem_quote {s : String} {c : Char} (h : c ∈ quote s) : 0x20 ≤ c.toNat := by
  rw [quote, List.mem_append, List.mem_cons, List.mem_flatMap, List.mem_singleton] at h
  rcases h with (rfl | ⟨d, _, hc⟩) | rfl
  · decide
  · rcases escape_cases d with ⟨_, he, first, tail, rfl, hfirst, htail, _⟩ | ⟨he, hself⟩
    · rw [he] at hc
      rcases List.mem_cons.1 hc with rfl | hc
      · decide
      rcases List.mem_cons.1 hc with rfl | hc
      · exact hfirst
      · exact (htail c hc).2.2
    · rw [he, List.mem_singleton] at hc
      exact hc ▸ hself.2.2
  · decide

/-! ## White space -/

/-- Where a character of a text stands. -/
inductive Region where
  | outside
  /-- Between the quotes of a string. -/
  | inside
  /-- Behind a backslash between quotes. -/
  | escaped
deriving DecidableEq

/-- Where the next character stands. -/
def Region.next : Region → Char → Region
  | .outside, c => if c = '"' then .inside else .outside
  | .inside, c => if c = '"' then .outside else if c = '\\' then .escaped else .inside
  | .escaped, _ => .inside

/-- The text without the white space outside strings. -/
def closeUp : Region → List Char → List Char
  | _, [] => []
  | region, c :: text =>
    if region = .outside ∧ isBlank c then closeUp region text
    else c :: closeUp (region.next c) text

theorem closeUp_blanks {blanks : List Char} (h : ∀ c ∈ blanks, isBlank c = true)
    (text : List Char) : closeUp .outside (blanks ++ text) = closeUp .outside text := by
  induction blanks with
  | nil => rfl
  | cons c blanks ih =>
    rw [List.forall_mem_cons] at h
    rw [List.cons_append, closeUp, if_pos ⟨rfl, h.1⟩, ih h.2]

theorem closeUp_cons {c : Char} (hblank : isBlank c = false) (hquote : c ≠ '"')
    (text : List Char) : closeUp .outside (c :: text) = c :: closeUp .outside text := by
  rw [closeUp, if_neg (by simp [hblank]), Region.next, if_neg hquote]

theorem closeUp_part (part : List Char) (h : ∀ c ∈ part, isBlank c = false ∧ c ≠ '"')
    (text : List Char) : closeUp .outside (part ++ text) = part ++ closeUp .outside text := by
  induction part with
  | nil => rfl
  | cons c part ih =>
    rw [List.forall_mem_cons] at h
    rw [List.cons_append, closeUp_cons h.1.1 h.1.2, ih h.2, List.cons_append]

theorem closeUp_inside {part : List Char} (h : ∀ c ∈ part, StandsForItself c) (text : List Char) :
    closeUp .inside (part ++ text) = part ++ closeUp .inside text := by
  induction part with
  | nil => rfl
  | cons c part ih =>
    rw [List.forall_mem_cons] at h
    obtain ⟨⟨hquote, hbackslash, _⟩, hpart⟩ := h
    rw [List.cons_append, closeUp, if_neg (by simp), Region.next, if_neg hquote, if_neg hbackslash,
      ih hpart, List.cons_append]

theorem closeUp_escape (c : Char) (text : List Char) :
    closeUp .inside (escape c ++ text) = escape c ++ closeUp .inside text := by
  rcases escape_cases c with ⟨_, he, first, tail, rfl, _, htail, _⟩ | ⟨he, hself⟩
  · rw [he, List.cons_append, List.cons_append, closeUp, if_neg (by simp), closeUp,
      if_neg (by simp [Region.next])]
    show '\\' :: first :: closeUp .inside (tail ++ text) = _
    rw [closeUp_inside htail]
    rfl
  · rw [he]
    exact closeUp_inside (by simpa using hself) text

/-- Strings are kept as they are. -/
theorem closeUp_quote (s : String) (text : List Char) :
    closeUp .outside (quote s ++ text) = quote s ++ closeUp .outside text := by
  have hinside (chars : List Char) :
      closeUp .inside (chars.flatMap escape ++ '"' :: text) =
        chars.flatMap escape ++ '"' :: closeUp .outside text := by
    induction chars with
    | nil => rfl
    | cons c chars ih =>
      rw [List.flatMap_cons, List.append_assoc, closeUp_escape, ih, List.append_assoc]
  rw [quote, List.append_assoc, List.append_assoc, List.cons_append, closeUp,
    if_neg (by decide)]
  exact congrArg _ (hinside s.toList)

end BinaryLayout.Json
