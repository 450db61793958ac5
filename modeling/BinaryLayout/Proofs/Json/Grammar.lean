import BinaryLayout.Proofs.Hexadecimal
import BinaryLayout.Proofs.Json.Numerals
import BinaryLayout.Proofs.Json.Strings

/-!
# The grammar of JSON

What is JSON, without a reader: numbers, the text between the quotes of a string, and values with
white space between their parts.  Two things are said of a text between quotes.  It is well-formed
(`IsContent`), which asks nothing of units of UTF-16, or it spells some characters (`Spells`), and
then no half of a pair stands alone.

There are four groups.

* Numbers.  `IsNumber`, and that the reader takes all of a number.
* Strings.  `IsContent` and `Spells`, and that the two readers come to the closing quote.
* Containers.  An `Element` is a value with what stands around it, and `Encloses` puts elements
  between brackets and commas.
* Values.  `IsValue` is the grammar.
-/

namespace BinaryLayout.Json

/-- Whether a text is white space. -/
def IsGap (text : List Char) : Prop := ∀ c ∈ text, isBlank c = true

theorem isGap_nil : IsGap [] := fun _ h => absurd h List.not_mem_nil

/-! ## Numbers -/

/-- One digit or more. -/
def IsDigits (text : List Char) : Prop := text ≠ [] ∧ ∀ c ∈ text, c.isDigit = true

/-- Digits without a needless zero in front. -/
def IsWhole (text : List Char) : Prop :=
  IsDigits text ∧ ∀ rest, text = '0' :: rest → rest = []

/-- Nothing, or a point and digits. -/
def IsFraction (text : List Char) : Prop :=
  text = [] ∨ ∃ digits, IsDigits digits ∧ text = '.' :: digits

/-- Nothing, or a letter and digits, which may have a sign. -/
def IsExponent (text : List Char) : Prop :=
  text = [] ∨ ∃ letter sign digits, (letter = 'e' ∨ letter = 'E') ∧ sign ∈ [[], ['+'], ['-']] ∧
    IsDigits digits ∧ text = letter :: (sign ++ digits)

/-- A number. -/
def IsNumber (text : List Char) : Prop :=
  ∃ sign whole fraction exponent, sign ∈ [[], ['-']] ∧ IsWhole whole ∧ IsFraction fraction ∧
    IsExponent exponent ∧ text = sign ++ (whole ++ (fraction ++ exponent))

section

variable {text rest : List Char}

theorem IsDigits.exists_eq_cons (h : IsDigits text) :
    ∃ c tail, text = c :: tail ∧ c.isDigit = true := by
  obtain ⟨c, tail, rfl⟩ := List.exists_cons_of_ne_nil h.1
  exact ⟨c, tail, rfl, h.2 c List.mem_cons_self⟩

/-- The digits before the point are the parts of a number. -/
theorem IsWhole.regular (h : IsWhole text) : (⟨false, text, [], true, 0⟩ : Numeral).Regular where
  digits_whole := h.1.2
  whole_ne_nil := h.1.1
  leading := h.2
  digits_fraction := fun _ hc => absurd hc List.not_mem_nil
  plain_iff := by simp

/-- An exponent begins neither with a digit nor with a point. -/
theorem IsExponent.ends (h : IsExponent text) (hrest : EndsNumber rest) :
    Count.Ends (text ++ rest) ∧ ∀ tail, text ++ rest ≠ '.' :: tail := by
  rcases h with rfl | ⟨letter, sign, digits, hletter, _, _, rfl⟩
  · refine ⟨hrest.ends, ?_⟩
    rintro tail rfl
    exact (hrest '.' rfl).2.1 rfl
  · rcases hletter with rfl | rfl
    · exact ⟨Count.ends_cons (by decide), fun tail h => absurd (List.cons.inj h).1 (by decide)⟩
    · exact ⟨Count.ends_cons (by decide), fun tail h => absurd (List.cons.inj h).1 (by decide)⟩

theorem IsFraction.ends (h : IsFraction text) (hrest : Count.Ends rest) :
    Count.Ends (text ++ rest) := by
  rcases h with rfl | ⟨digits, _, rfl⟩
  · exact hrest
  · exact Count.ends_cons (by decide)

theorem readFraction_append (atEnd : Refusal) (h : IsFraction text) (hends : Count.Ends rest)
    (hpoint : ∀ tail, rest ≠ '.' :: tail) :
    ∃ digits, readFraction atEnd (text ++ rest) = .ok (digits, rest) := by
  rcases h with rfl | ⟨digits, hdigits, rfl⟩
  · refine ⟨none, ?_⟩
    rw [List.nil_append, readFraction]
    exact hpoint
  · refine ⟨some digits, ?_⟩
    rw [List.cons_append, readFraction, readDigits_append hdigits.2 hdigits.1 hends]

theorem readSign_append {sign digits : List Char} (hsign : sign ∈ [[], ['+'], ['-']])
    (hdigits : IsDigits digits) (rest : List Char) :
    ∃ negative, readSign (sign ++ (digits ++ rest)) = (negative, digits ++ rest) := by
  obtain ⟨c, tail, rfl, hc⟩ := hdigits.exists_eq_cons
  simp only [List.mem_cons, List.not_mem_nil, or_false] at hsign
  rcases hsign with rfl | rfl | rfl
  · refine ⟨false, ?_⟩
    rw [List.nil_append, List.cons_append, readSign]
    · rintro tail h
      rw [(List.cons.inj h).1] at hc
      exact absurd hc (by decide)
    · rintro tail h
      rw [(List.cons.inj h).1] at hc
      exact absurd hc (by decide)
  · exact ⟨false, rfl⟩
  · exact ⟨true, rfl⟩

theorem readExponent_append (atEnd : Refusal) (h : IsExponent text) (hrest : EndsNumber rest) :
    ∃ n, readExponent atEnd (text ++ rest) = .ok (n, rest) := by
  rcases h with rfl | ⟨letter, sign, digits, hletter, hsign, hdigits, rfl⟩
  · refine ⟨none, ?_⟩
    rw [List.nil_append]
    cases rest with
    | nil => rfl
    | cons c rest =>
      obtain ⟨_, _, he, hE⟩ := hrest c rfl
      rw [readExponent, if_neg (by simp [he, hE])]
  · obtain ⟨negative, hread⟩ := readSign_append hsign hdigits rest
    rw [List.cons_append, List.append_assoc, readExponent, if_pos hletter, readPower, hread]
    dsimp only
    rw [readDigits_append hdigits.2 hdigits.1 hrest.ends]
    exact ⟨_, rfl⟩

/-- All of a number is read, and nothing behind it. -/
theorem readNumeral_append (atEnd : Refusal) (h : IsNumber text) (hrest : EndsNumber rest) :
    ∃ numeral, readNumeral atEnd (text ++ rest) = .ok (numeral, rest) := by
  obtain ⟨sign, whole, fraction, exponent, hsign, hwhole, hfraction, hexponent, rfl⟩ := h
  obtain ⟨hends, hpoint⟩ := hexponent.ends hrest
  have hread : readWhole atEnd (whole ++ (fraction ++ (exponent ++ rest))) =
      .ok (whole, fraction ++ (exponent ++ rest)) :=
    Numeral.readWhole_append hwhole.regular (hfraction.ends hends)
  obtain ⟨digits, hdigits⟩ := readFraction_append atEnd hfraction hends hpoint
  obtain ⟨power, hpower⟩ := readExponent_append atEnd hexponent hrest
  have hsigned : (if (sign ++ (whole ++ (fraction ++ (exponent ++ rest)))).head? == some '-'
      then (sign ++ (whole ++ (fraction ++ (exponent ++ rest)))).tail
      else sign ++ (whole ++ (fraction ++ (exponent ++ rest)))) =
      whole ++ (fraction ++ (exponent ++ rest)) := by
    obtain ⟨c, tail, rfl, hc⟩ := hwhole.1.exists_eq_cons
    have hne : c ≠ '-' := by
      rintro rfl
      exact absurd hc (by decide)
    simp only [List.mem_cons, List.not_mem_nil, or_false] at hsign
    rcases hsign with rfl | rfl
    · simp [hne]
    · rfl
  simp only [readNumeral, bind, Except.bind, List.append_assoc, hsigned, hread, hdigits, hpower]
  exact ⟨_, rfl⟩

/-- A number begins with a sign or a digit. -/
theorem IsNumber.exists_eq_cons (h : IsNumber text) :
    ∃ c tail, text = c :: tail ∧ startsNumber c = true := by
  obtain ⟨sign, whole, fraction, exponent, hsign, hwhole, _, _, rfl⟩ := h
  obtain ⟨c, tail, rfl, hc⟩ := hwhole.1.exists_eq_cons
  simp only [List.mem_cons, List.not_mem_nil, or_false] at hsign
  rcases hsign with rfl | rfl
  · exact ⟨c, _, rfl, by rw [startsNumber, hc, Bool.or_true]⟩
  · exact ⟨'-', _, rfl, rfl⟩

/-! ## Strings -/

/-- The letters that may stand behind a backslash, with the characters they stand for. -/
def letters : List (Char × Char) :=
  [('"', '"'), ('\\', '\\'), ('/', '/'), ('b', '\x08'), ('f', '\x0c'), ('n', '\n'), ('r', '\r'),
    ('t', '\t')]

/-- Whether four hexadecimal digits stand for a unit of UTF-16. -/
def IsUnit (digits : List Char) (n : Nat) : Prop :=
  ∃ a b c d, digits.map Hex.digit? = [some a, some b, some c, some d] ∧
    n = ((a * 16 + b) * 16 + c) * 16 + d

/-- Whether a text may stand between quotes. -/
inductive IsContent : List Char → Prop
  | nil : IsContent []
  | itself {c : Char} {text : List Char} (h : StandsForItself c) (hmore : IsContent text) :
    IsContent (c :: text)
  | letter {c d : Char} {text : List Char} (h : (c, d) ∈ letters) (hmore : IsContent text) :
    IsContent ('\\' :: c :: text)
  | unit {digits text : List Char} {n : Nat} (h : IsUnit digits n) (hmore : IsContent text) :
    IsContent ('\\' :: 'u' :: (digits ++ text))

/-- Whether a text between quotes stands for the given characters. -/
inductive Spells : List Char → List Char → Prop
  | nil : Spells [] []
  | itself {c : Char} {code chars : List Char} (h : StandsForItself c) (hmore : Spells code chars) :
    Spells (c :: code) (c :: chars)
  | letter {c d : Char} {code chars : List Char} (h : (c, d) ∈ letters)
      (hmore : Spells code chars) : Spells ('\\' :: c :: code) (d :: chars)
  | unit {digits code chars : List Char} {n : Nat} (h : IsUnit digits n)
      (hleading : isLeading n = false) (htrailing : isTrailing n = false)
      (hmore : Spells code chars) :
    Spells ('\\' :: 'u' :: (digits ++ code)) (Char.ofNat n :: chars)
  | pair {first second code chars : List Char} {m n : Nat} (hfirst : IsUnit first m)
      (hsecond : IsUnit second n) (hleading : isLeading m = true) (htrailing : isTrailing n = true)
      (hmore : Spells code chars) :
    Spells ('\\' :: 'u' :: (first ++ '\\' :: 'u' :: (second ++ code)))
      (Char.ofNat (0x10000 + (m - 0xD800) * 0x400 + (n - 0xDC00)) :: chars)

theorem hexValue?_eq (c : Char) : hexValue? c = Hex.digit? c := by
  rw [hexValue?]
  split
  · next hlt =>
    have hchar : Bytewise.asChar c.toUInt8 = c := by
      rw [← Char.toNat_inj, Bytewise.toNat_asChar]
      exact Nat.mod_eq_of_lt (Nat.lt_trans hlt (by decide))
    rw [Hex.value?_eq, hchar]
  · next hlt => rw [Hex.digit?_eq_none (Nat.le_of_not_lt hlt)]

theorem readUnit_append {digits : List Char} {n : Nat} (h : IsUnit digits n) (rest : List Char) :
    readUnit (digits ++ rest) = .ok (n, rest) := by
  obtain ⟨i, j, k, l, hdigits, rfl⟩ := h
  simp only [List.map_eq_cons_iff, List.map_eq_nil_iff] at hdigits
  obtain ⟨a, _, rfl, ha, b, _, rfl, hb, c, _, rfl, hc, d, _, rfl, hd, rfl⟩ := hdigits
  have hsize := Utf8.length_le_utf8ByteSize (String.ofList [a, b, c, d])
  rw [String.toList_ofList] at hsize
  show readUnit (a :: b :: c :: d :: rest) = _
  rw [readUnit]
  refine (if_neg (Nat.not_lt.2 hsize)).trans ?_
  simp only [hexValue?_eq, ha, hb, hc, hd]

theorem readEscape_letter {c d : Char} (h : (c, d) ∈ letters) (rest : List Char) :
    readEscape (c :: rest) = .ok (.char d, rest) := by
  simp only [letters, List.mem_cons, List.not_mem_nil, or_false, Prod.mk.injEq] at h
  rcases h with ⟨rfl, rfl⟩ | ⟨rfl, rfl⟩ | ⟨rfl, rfl⟩ | ⟨rfl, rfl⟩ | ⟨rfl, rfl⟩ | ⟨rfl, rfl⟩ |
    ⟨rfl, rfl⟩ | ⟨rfl, rfl⟩
  all_goals rfl

theorem readEscape_unit {digits : List Char} {n : Nat} (h : IsUnit digits n) (rest : List Char) :
    readEscape ('u' :: (digits ++ rest)) = .ok (.unit n, rest) := by
  simp only [readEscape, readUnit_append h]

/-- No unit is both halves of a pair. -/
theorem isTrailing_of_isLeading {n : Nat} (h : isLeading n = true) : isTrailing n = false := by
  rw [isLeading, Bool.and_eq_true, decide_eq_true_eq, decide_eq_true_eq] at h
  rw [isTrailing, decide_eq_false (by omega), Bool.false_and]

theorem skipString_backslash {escape : Escape} {left : List Char}
    (h : readEscape text = .ok (escape, left)) : skipString ('\\' :: text) = skipString left := by
  rw [skipString, if_neg (by decide), if_pos rfl]
  split
  · next he => simp [h] at he
  · next he =>
    rw [h] at he
    obtain ⟨_, rfl⟩ := Prod.mk.inj (Except.ok.inj he)
    rfl

/-- A well-formed string is passed over up to its closing quote. -/
theorem skipString_append (h : IsContent text) (rest : List Char) :
    skipString (text ++ '"' :: rest) = .ok rest := by
  induction h with
  | nil => rw [List.nil_append, skipString, if_pos rfl]
  | itself h _ ih =>
    obtain ⟨hquote, hbackslash, hlow⟩ := h
    rw [List.cons_append, skipString, if_neg hquote, if_neg hbackslash, if_neg (Nat.not_lt.2 hlow),
      ih]
  | letter h _ ih =>
    rw [List.cons_append, List.cons_append, skipString_backslash (readEscape_letter h _), ih]
  | unit h _ ih =>
    rw [List.cons_append, List.cons_append, List.append_assoc,
      skipString_backslash (readEscape_unit h _), ih]

/-- What spells characters is read as these characters, up to the closing quote. -/
theorem readString_append {code chars : List Char} (h : Spells code chars) (rest : List Char) :
    readString (code ++ '"' :: rest) = .ok (chars, rest) := by
  induction h with
  | nil => rw [List.nil_append, readString, if_pos rfl]
  | itself h _ ih => exact readString_cons h ih
  | letter h _ ih =>
    rw [List.cons_append, List.cons_append]
    refine readString_backslash ?_ ih
    rw [readEscaped, readEscape_letter h]
  | unit h hleading htrailing _ ih =>
    rw [List.cons_append, List.cons_append, List.append_assoc]
    refine readString_backslash ?_ ih
    simp only [readEscaped, readEscape_unit h, htrailing, hleading, Bool.false_eq_true, if_false]
  | pair hfirst hsecond hleading htrailing _ ih =>
    have hfirst' := isTrailing_of_isLeading hleading
    rw [List.cons_append, List.cons_append, List.append_assoc, List.cons_append, List.cons_append,
      List.append_assoc]
    refine readString_backslash ?_ ih
    simp only [readEscaped, readEscape_unit hfirst, hfirst', hleading, Bool.false_eq_true,
      if_false, if_true, readPair, readUnit_append hsecond, htrailing]

theorem spells_self {text : List Char} (h : text.all (StandsForItself ·) = true) :
    Spells text text := by
  induction text with
  | nil => exact .nil
  | cons c text ih =>
    rw [List.all_cons, Bool.and_eq_true, decide_eq_true_eq] at h
    exact .itself h.1 (ih h.2)

end

/-! ## Containers -/

/-- The character that opens a container. -/
def Bracket.opening : Bracket → Char
  | .list => '['
  | .object => '\x7b'

/-- A value in a container.  The key of a member belongs to what stands in front of the value. -/
structure Element where
  front : List Char
  value : List Char
  behind : List Char

/-- The text of an element. -/
def Element.text (element : Element) : List Char :=
  element.front ++ (element.value ++ element.behind)

/-- The rest of a container behind one of its elements. -/
def Bracket.following (bracket : Bracket) (elements : List Element) (rest : List Char) :
    List Char :=
  elements.flatMap (fun element => ',' :: element.text) ++ bracket.closing :: rest

/-- A container with the given elements, with a comma between each two of them. -/
inductive Encloses (bracket : Bracket) : List Element → List Char → Prop
  | empty {gap : List Char} (h : IsGap gap) :
    Encloses bracket [] (bracket.opening :: (gap ++ [bracket.closing]))
  | elements (element : Element) (elements : List Element) :
    Encloses bracket (element :: elements)
      (bracket.opening :: (element.text ++ bracket.following elements []))

/-- A key between quotes, and a colon, as they stand in front of the value of a member. -/
inductive Quotes (code : List Char) : List Char → Prop
  | quotes {first second third : List Char} (hfirst : IsGap first) (hsecond : IsGap second)
      (hthird : IsGap third) :
    Quotes code (first ++ '"' :: (code ++ '"' :: (second ++ ':' :: third)))

/-- Whether a text may stand in front of a value in a container. -/
def Bracket.IsFront : Bracket → List Char → Prop
  | .list, front => IsGap front
  | .object, front => ∃ code, IsContent code ∧ Quotes code front

/-! ## Values -/

/-- The words that are values. -/
def words : List (List Char) :=
  [['n', 'u', 'l', 'l'], ['t', 'r', 'u', 'e'], ['f', 'a', 'l', 's', 'e']]

/-- A value. -/
inductive IsValue : List Char → Prop
  | word {text : List Char} (h : text ∈ words) : IsValue text
  | number {text : List Char} (h : IsNumber text) : IsValue text
  | string {code : List Char} (h : IsContent code) : IsValue ('"' :: (code ++ ['"']))
  | container {bracket : Bracket} {elements : List Element} {text : List Char}
      (h : Encloses bracket elements text)
      (hfront : ∀ element ∈ elements, bracket.IsFront element.front)
      (hvalue : ∀ element ∈ elements, IsValue element.value)
      (hbehind : ∀ element ∈ elements, IsGap element.behind) : IsValue text

/-- A value begins with something that is neither white space nor the end of a list. -/
theorem IsValue.exists_eq_cons {text : List Char} (h : IsValue text) :
    ∃ c tail, text = c :: tail ∧ isBlank c = false ∧ c ≠ ']' := by
  cases h with
  | word h =>
    simp only [words, List.mem_cons, List.not_mem_nil, or_false] at h
    rcases h with rfl | rfl | rfl
    all_goals exact ⟨_, _, rfl, rfl, by decide⟩
  | number h =>
    obtain ⟨c, tail, rfl, hc⟩ := h.exists_eq_cons
    exact ⟨c, tail, rfl, isBlank_of_startsNumber hc, ne_of_startsNumber hc rfl⟩
  | string h => exact ⟨'"', _, rfl, rfl, by decide⟩
  | @container bracket elements _ h =>
    have hopening : isBlank bracket.opening = false ∧ bracket.opening ≠ ']' := by
      cases bracket <;> decide
    cases h with
    | empty h => exact ⟨_, _, rfl, hopening⟩
    | elements element elements => exact ⟨_, _, rfl, hopening⟩

end BinaryLayout.Json
