import BinaryLayout.Token

/-!
# The characters of a code

A code is one character, or a letter and a mark behind it.  `Token.code?_cases` takes a code that
was read apart in these two ways, and `Code.ofPair?_cases` says which letters and marks belong
together.  Every character begins a code (`Token.eq_nil_of_next?`).
-/

namespace BinaryLayout

/-- A code is what its one character stands for, or what its two characters stand for together. -/
theorem Token.code?_cases {text rest : List Char} {code : Code}
    (h : code? text = some (code, rest)) :
    (∃ c, text = c :: rest ∧ code = .ofChar c) ∨
      ∃ c d, text = c :: d :: rest ∧ Code.ofPair? c d = some code := by
  unfold code? at h
  split at h
  · cases h
  · next c =>
    obtain ⟨hcode, hrest⟩ := Prod.mk.inj (Option.some.inj h)
    exact .inl ⟨c, hrest ▸ rfl, hcode.symm⟩
  · next c d behind =>
    split at h
    · next found hpair =>
      obtain ⟨rfl, rfl⟩ := Prod.mk.inj (Option.some.inj h)
      exact .inr ⟨c, d, rfl, hpair⟩
    · obtain ⟨hcode, hrest⟩ := Prod.mk.inj (Option.some.inj h)
      exact .inl ⟨c, hrest ▸ rfl, hcode.symm⟩

/-- Outside of a record there are tokens up to the end of a text. -/
theorem Token.eq_nil_of_next? {text : List Char} (h : next? false text = .ok none) : text = [] := by
  have hread : read? none text = none := Except.ok.inj h
  match text, Option.map_eq_none_iff.1 hread with
  | [], _ => rfl
  | [_], hcode => cases hcode
  | c :: d :: tail, hcode =>
    rw [code?] at hcode
    split at hcode <;> cases hcode

/-- The codes of two characters are numbers and terminated texts. -/
theorem Code.ofPair?_cases {c d : Char} {code : Code} (h : ofPair? c d = some code) :
    c ∈ ['s', 'S', 'l', 'L', 'q', 'Q', 'f', 'd', 'Z'] ∧ d ∈ ['<', '>', '+'] ∧
      ((∃ field, code = .field (.number field)) ∨ code = .field .terminated) := by
  have hordered {order : ByteOrder} (h : ordered? c order = some code) :
      c ∈ ['s', 'S', 'l', 'L', 'q', 'Q', 'f', 'd', 'Z'] ∧
        ∃ field, code = .field (.number field) := by
    unfold ordered? at h
    split at h
    all_goals cases h
    all_goals exact ⟨by decide, _, rfl⟩
  unfold ofPair? at h
  split at h
  · exact ⟨(hordered h).1, by decide, .inl (hordered h).2⟩
  · exact ⟨(hordered h).1, by decide, .inl (hordered h).2⟩
  · split at h
    · next hletter =>
      cases h
      exact ⟨by rw [hletter]; decide, by decide, .inr rfl⟩
    · cases h
  · cases h

end BinaryLayout
