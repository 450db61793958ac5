import BinaryLayout.Proofs.Json.Grammar

/-!
# Values are passed over

A value of the grammar is passed over from its first character to its last one, whatever containers
are open around it and however deeply it is nested (`IsValue.passes`).  What follows must not go on
with a number, which in a container is never the case.

* Steps.  `skip_before` and `skip_behind` are the reader without the proofs that it ends, and there
  is one lemma for each thing that it comes upon: `skip_scalar`, `skip_opening`, `skip_closing` and
  `skip_comma`.
* Elements.  What stands in front of a value in a container, and what follows it there.
* Values.  The induction over the grammar, with the rest of a container behind one of its elements
  (`skip_following`).
-/

namespace BinaryLayout.Json

/-! ## Steps -/

section

variable {opened : List Bracket} {bracket : Bracket} {c : Char} {text rest left : List Char}

/-- What happens in front of a value. -/
theorem skip_before (opened : List Bracket) (text : List Char) :
    skip .before opened text =
      match dropBlank text with
      | [] => .error .incomplete
      | c :: rest =>
        if c = '[' ∨ c = '\x7b' then
          let bracket : Bracket := if c = '[' then .list else .object
          match dropBlank rest with
          | [] => .error .incomplete
          | d :: inner =>
            if d = bracket.closing then skip .behind opened inner
            else (bracket.skipKey (d :: inner)).bind (skip .before (bracket :: opened))
        else (skipScalar (c :: rest)).bind (skip .behind opened) := by
  rw [skip]
  split
  · next hb => rw [hb]
  · next hb =>
    dsimp only
    rw [hb]
    refine if_congr Iff.rfl ?_ ?_
    · split
      · next hr => rw [hr]
      · next hr =>
        rw [hr]
        refine if_congr Iff.rfl rfl ?_
        split <;> next hk => rw [hk]; rfl
    · split <;> next hs => rw [hs]; rfl

/-- What happens behind a value in a container. -/
theorem skip_behind (bracket : Bracket) (opened : List Bracket) (text : List Char) :
    skip .behind (bracket :: opened) text =
      match dropBlank text with
      | [] => .error .incomplete
      | c :: rest =>
        if c = bracket.closing then skip .behind opened rest
        else if c = ',' then (bracket.skipKey rest).bind (skip .before (bracket :: opened))
        else .error .malformed := by
  rw [skip]
  split
  · next hb => rw [hb]
  · next hb =>
    dsimp only
    rw [hb]
    refine if_congr Iff.rfl rfl (if_congr Iff.rfl ?_ rfl)
    split <;> next hk => rw [hk]; rfl

/-- A value that is neither a list nor an object. -/
theorem skip_scalar (hb : dropBlank text = c :: rest)
    (hc : ∀ bracket : Bracket, c ≠ bracket.opening) (h : skipScalar (c :: rest) = .ok left) :
    skip .before opened text = skip .behind opened left := by
  have hne : ¬ (c = '[' ∨ c = '\x7b') := not_or.2 ⟨hc .list, hc .object⟩
  rw [skip_before, hb]
  dsimp only
  rw [if_neg hne, h]
  rfl

/-- A container: its end comes next, or what has to stand in front of a first value. -/
theorem skip_opening (hb : dropBlank text = bracket.opening :: rest) :
    skip .before opened text =
      match dropBlank rest with
      | [] => .error .incomplete
      | d :: inner =>
        if d = bracket.closing then skip .behind opened inner
        else (bracket.skipKey (d :: inner)).bind (skip .before (bracket :: opened)) := by
  rw [skip_before, hb]
  cases bracket <;> rfl

theorem skip_closing (hb : dropBlank text = bracket.closing :: rest) :
    skip .behind (bracket :: opened) text = skip .behind opened rest := by
  rw [skip_behind, hb]
  exact if_pos rfl

theorem skip_comma (hb : dropBlank text = ',' :: rest) (h : bracket.skipKey rest = .ok left) :
    skip .behind (bracket :: opened) text = skip .before (bracket :: opened) left := by
  have hclosing : ',' ≠ bracket.closing := by cases bracket <;> decide
  rw [skip_behind, hb]
  dsimp only
  rw [if_neg hclosing, if_pos rfl, h]
  rfl

end

/-! ## Elements -/

section

variable {bracket : Bracket} {front value gap : List Char}

theorem dropBlank_gap (h : IsGap gap) {c : Char} (hc : isBlank c = false) (text : List Char) :
    dropBlank (gap ++ c :: text) = c :: text := by
  rw [dropBlank_append h, dropBlank_cons hc]

theorem Bracket.isBlank_opening (bracket : Bracket) : isBlank bracket.opening = false := by
  cases bracket <;> rfl

theorem Bracket.isBlank_closing (bracket : Bracket) : isBlank bracket.closing = false := by
  cases bracket <;> rfl

/-- White space does not go on with a number. -/
theorem endsNumber_gap (h : IsGap gap) {text : List Char} (htext : EndsNumber text) :
    EndsNumber (gap ++ text) := by
  cases gap with
  | nil => exact htext
  | cons c gap =>
    have hc : isBlank c = true := h c List.mem_cons_self
    refine endsNumber_cons c _ ⟨?_, ?_, ?_, ?_⟩
    · refine Bool.eq_false_iff.2 fun hdigit => ?_
      rw [isBlank_of_startsNumber (by rw [startsNumber, hdigit, Bool.or_true])] at hc
      cases hc
    all_goals
      rintro rfl
      cases hc

theorem Bracket.following_cons (bracket : Bracket) (element : Element) (elements : List Element)
    (rest : List Char) :
    bracket.following (element :: elements) rest =
      ',' :: (element.front ++ (element.value ++
        (element.behind ++ bracket.following elements rest))) := by
  simp [following, Element.text]

theorem Bracket.following_append (bracket : Bracket) (elements : List Element) (rest : List Char) :
    bracket.following elements [] ++ rest = bracket.following elements rest := by
  rw [following, following, List.append_assoc, List.singleton_append]

/-- Neither a comma nor a closing bracket goes on with a number. -/
theorem Bracket.endsNumber_following (bracket : Bracket) (elements : List Element)
    (rest : List Char) : EndsNumber (bracket.following elements rest) := by
  cases elements with
  | nil => exact endsNumber_cons _ _ (by cases bracket <;> decide)
  | cons element elements => exact endsNumber_cons _ _ (by decide)

theorem readColon_gap (h : IsGap gap) (text : List Char) :
    readColon (gap ++ ':' :: text) = .ok text := by
  rw [readColon, dropBlank_gap h (c := ':') rfl]
  rfl

/-- The key of a member is passed over up to white space in front of the value. -/
theorem skipKey_append {code : List Char} (hcode : IsContent code) (h : Quotes code front)
    (text : List Char) : ∃ gap, IsGap gap ∧ skipKey (front ++ text) = .ok (gap ++ text) := by
  obtain ⟨hfirst, hsecond, hthird⟩ := h
  have hquote := dropBlank_gap hfirst (c := '"') rfl
  refine ⟨_, hthird, ?_⟩
  simp only [skipKey, List.append_assoc, List.cons_append, hquote, skipString_append hcode,
    readColon_gap hsecond]

theorem Bracket.IsFront.skipKey_append (h : bracket.IsFront front) (text : List Char) :
    ∃ gap, IsGap gap ∧ bracket.skipKey (front ++ text) = .ok (gap ++ text) := by
  cases bracket with
  | list => exact ⟨front, h, rfl⟩
  | object =>
    obtain ⟨code, hcode, hquotes⟩ := h
    exact Json.skipKey_append hcode hquotes text

/-- Behind an opening bracket, what stands in front of a value is not taken for the end. -/
theorem Bracket.IsFront.skipKey_first (h : bracket.IsFront front) (hvalue : IsValue value)
    (text : List Char) :
    ∃ c inner gap, dropBlank (front ++ (value ++ text)) = c :: inner ∧ c ≠ bracket.closing ∧
      IsGap gap ∧ bracket.skipKey (c :: inner) = .ok (gap ++ (value ++ text)) := by
  cases bracket with
  | list =>
    obtain ⟨c, tail, rfl, hblank, hc⟩ := hvalue.exists_eq_cons
    exact ⟨c, tail ++ text, [], dropBlank_gap h hblank _, hc, isGap_nil, rfl⟩
  | object =>
    obtain ⟨code, hcode, hquotes⟩ := h
    obtain ⟨gap, hgap, hskip⟩ := Json.skipKey_append hcode hquotes (value ++ text)
    have hquote : ∃ inner, dropBlank (front ++ (value ++ text)) = '"' :: inner := by
      obtain ⟨hfirst, _, _⟩ := hquotes
      rw [List.append_assoc, List.cons_append, dropBlank_gap hfirst rfl]
      exact ⟨_, rfl⟩
    obtain ⟨inner, hinner⟩ := hquote
    refine ⟨'"', inner, gap, hinner, by decide, hgap, ?_⟩
    rw [← hskip, skipKey, Json.skipKey, Json.skipKey, hinner, dropBlank_cons rfl]

end

/-! ## Values -/

/-- Whether a reader in front of the text, or of white space in front of it, comes to stand behind
it. -/
def Passes (text : List Char) : Prop :=
  ∀ (opened : List Bracket) (gap rest : List Char), IsGap gap → EndsNumber rest →
    skip .before opened (gap ++ (text ++ rest)) = skip .behind opened rest

theorem passes_scalar {c : Char} {text : List Char} (hblank : isBlank c = false)
    (hc : ∀ bracket : Bracket, c ≠ bracket.opening)
    (h : ∀ rest, EndsNumber rest → skipScalar (c :: (text ++ rest)) = .ok rest) :
    Passes (c :: text) :=
  fun _ _ rest hgap hrest => skip_scalar (dropBlank_gap hgap hblank _) hc (h rest hrest)

theorem passes_word {text : List Char} (h : text ∈ words) : Passes text := by
  simp only [words, List.mem_cons, List.not_mem_nil, or_false] at h
  rcases h with rfl | rfl | rfl
  all_goals exact passes_scalar rfl (by rintro (_ | _) <;> decide) fun _ _ => rfl

theorem passes_number {text : List Char} (h : IsNumber text) : Passes text := by
  obtain ⟨c, tail, rfl, hc⟩ := h.exists_eq_cons
  refine passes_scalar (isBlank_of_startsNumber hc) ?_ fun rest hrest => ?_
  · rintro (_ | _)
    all_goals exact ne_of_startsNumber hc rfl
  · obtain ⟨numeral, hread⟩ := readNumeral_append .malformed h hrest
    rw [List.cons_append] at hread
    rw [skipScalar, if_pos hc, hread]
    all_goals exact ne_of_startsNumber hc rfl

theorem passes_string {code : List Char} (h : IsContent code) :
    Passes ('"' :: (code ++ ['"'])) := by
  refine passes_scalar rfl (by rintro (_ | _) <;> decide) fun rest _ => ?_
  rw [List.append_assoc, List.singleton_append]
  exact skipString_append h rest

section

variable {bracket : Bracket}

/-- The rest of a container, behind one of its elements. -/
theorem skip_following {elements : List Element}
    (hfront : ∀ element ∈ elements, bracket.IsFront element.front)
    (hvalue : ∀ element ∈ elements, Passes element.value)
    (hbehind : ∀ element ∈ elements, IsGap element.behind) (opened : List Bracket) {gap : List Char}
    (hgap : IsGap gap) (rest : List Char) :
    skip .behind (bracket :: opened) (gap ++ bracket.following elements rest) =
      skip .behind opened rest := by
  induction elements generalizing gap with
  | nil => exact skip_closing (dropBlank_gap hgap bracket.isBlank_closing rest)
  | cons element elements ih =>
    rw [List.forall_mem_cons] at hfront hvalue hbehind
    obtain ⟨space, hspace, hskip⟩ := hfront.1.skipKey_append
      (element.value ++ (element.behind ++ bracket.following elements rest))
    have hend := endsNumber_gap hbehind.1 (bracket.endsNumber_following elements rest)
    rw [bracket.following_cons, skip_comma (dropBlank_gap hgap rfl _) hskip,
      hvalue.1 _ _ _ hspace hend, ih hfront.2 hvalue.2 hbehind.2 hbehind.1]

theorem passes_container {elements : List Element} {text : List Char}
    (h : Encloses bracket elements text)
    (hfront : ∀ element ∈ elements, bracket.IsFront element.front)
    (hvalue : ∀ element ∈ elements, IsValue element.value ∧ Passes element.value)
    (hbehind : ∀ element ∈ elements, IsGap element.behind) : Passes text := by
  intro opened gap rest hgap hrest
  cases h with
  | empty h =>
    rw [List.cons_append, List.append_assoc, List.singleton_append,
      skip_opening (dropBlank_gap hgap bracket.isBlank_opening _),
      dropBlank_gap h bracket.isBlank_closing]
    exact if_pos rfl
  | elements element elements =>
    rw [List.forall_mem_cons] at hfront hvalue hbehind
    obtain ⟨c, inner, space, hfirst, hc, hspace, hskip⟩ := hfront.1.skipKey_first hvalue.1.1
      (element.behind ++ bracket.following elements rest)
    have hend := endsNumber_gap hbehind.1 (bracket.endsNumber_following elements rest)
    rw [List.cons_append, skip_opening (dropBlank_gap hgap bracket.isBlank_opening _),
      List.append_assoc, bracket.following_append, Element.text, List.append_assoc,
      List.append_assoc, hfirst]
    dsimp only
    rw [if_neg hc, hskip]
    show skip .before (bracket :: opened) _ = _
    rw [hvalue.1.2 _ _ _ hspace hend]
    exact skip_following hfront.2 (fun element h => (hvalue.2 element h).2) hbehind.2 opened
      hbehind.1 rest

end

/-- Every value is passed over, and nothing behind it. -/
theorem IsValue.passes {text : List Char} (h : IsValue text) : Passes text := by
  induction h with
  | word h => exact passes_word h
  | number h => exact passes_number h
  | string h => exact passes_string h
  | container h hfront hvalue hbehind ih =>
    exact passes_container h hfront (fun e hmem => ⟨hvalue e hmem, ih e hmem⟩) hbehind

/-- A reader that only passes over a value comes to stand behind it. -/
theorem skipValue_append {text gap rest : List Char} (h : IsValue text) (hgap : IsGap gap)
    (hrest : EndsNumber rest) : skipValue (gap ++ (text ++ rest)) = .ok rest := by
  rw [skipValue, h.passes [] gap rest hgap hrest, skip]

end BinaryLayout.Json
