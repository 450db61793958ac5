import BinaryLayout.Glob.Pattern

/-!
# Which names a pattern fits

`compare` tries any characters as none at all first, and as one more each time that fails.  It gives
up early: when a name has come to its end, no later part of it is tried.

`Fits` says which names some elements stand for, whatever is tried in which order.  Giving up early
is right, as no later part of the name fits then either (`compare_spec`), so `compare` finds exactly
the names that fit (`matchesName_iff`).
-/

namespace BinaryLayout.Glob

/-- The elements stand for the name. -/
inductive Fits : List Token → List Char → Prop
  | nil : Fits [] []
  /-- An element for one character. -/
  | one {token tokens c name} (admits : token.admits c = true) (rest : Fits tokens name) :
    Fits (token :: tokens) (c :: name)
  /-- Any characters may be none. -/
  | none {tokens name} (rest : Fits tokens name) : Fits (.anyChars :: tokens) name
  /-- They may be one more. -/
  | more {tokens c name} (rest : Fits (.anyChars :: tokens) name) :
    Fits (.anyChars :: tokens) (c :: name)

/-- Behind any characters a later part of the name is left. -/
theorem Fits.exists_suffix {tokens : List Token} {name : List Char}
    (h : Fits (.anyChars :: tokens) name) : ∃ left, left <:+ name ∧ Fits tokens left := by
  induction name with
  | nil =>
    cases h with
    | none rest => exact ⟨[], List.suffix_rfl, rest⟩
  | cons c name ih =>
    cases h with
    | one admits _ => cases admits
    | none rest => exact ⟨c :: name, List.suffix_rfl, rest⟩
    | more rest =>
      obtain ⟨left, hsuffix, hleft⟩ := ih rest
      exact ⟨left, hsuffix.trans (List.suffix_cons c name), hleft⟩

/-- Any other element takes one character. -/
theorem Fits.of_ne_anyChars {token : Token} {tokens : List Token} {name : List Char}
    (h : Fits (token :: tokens) name) (hany : token ≠ .anyChars) :
    ∃ c rest, name = c :: rest ∧ token.admits c = true ∧ Fits tokens rest := by
  cases h with
  | one admits rest => exact ⟨_, _, rfl, admits, rest⟩
  | none | more => exact absurd rfl hany

/-- A name that fits is found to do so, and where a name is too short no later part of it fits. -/
theorem compare_spec (tokens : List Token) (name : List Char) :
    (compare tokens name = .fits ↔ Fits tokens name) ∧
      (compare tokens name = .ends → ∀ left, left <:+ name → ¬ Fits tokens left) := by
  fun_induction compare tokens name with
  | case1 => exact ⟨iff_of_true rfl .nil, nofun⟩
  | case2 c name => exact ⟨iff_of_false nofun nofun, nofun⟩
  | case3 tokens ih =>
    refine ⟨ih.1.trans ⟨.none, fun h => ?_⟩, fun hends left hleft h => ?_⟩
    · cases h with
      | none rest => exact rest
    · obtain ⟨other, hother, hfits⟩ := h.exists_suffix
      exact ih.2 hends other (hother.trans hleft) hfits
  | case4 tokens c name hdiffers ih ihMore =>
    -- Not even the whole of the name fits behind them, so they are one character at least.
    have hmore (h : Fits (.anyChars :: tokens) (c :: name)) : Fits (.anyChars :: tokens) name := by
      cases h with
      | one admits _ => cases admits
      | none rest =>
        have hfits := ih.1.2 rest
        rw [hdiffers] at hfits
        cases hfits
      | more rest => exact rest
    refine ⟨ihMore.1.trans ⟨.more, hmore⟩, fun hends left hleft h => ?_⟩
    rcases List.suffix_cons_iff.1 hleft with rfl | hleft
    · exact ihMore.2 hends name List.suffix_rfl (hmore h)
    · exact ihMore.2 hends left hleft h
  | case5 tokens c name hnot ih =>
    refine ⟨⟨fun h => .none (ih.1.1 h), fun h => ?_⟩, fun hends left hleft h => ?_⟩
    · obtain ⟨left, hleft, hfits⟩ := h.exists_suffix
      cases hverdict : compare tokens (c :: name) with
      | fits => rfl
      | differs => exact absurd hverdict hnot
      | ends => exact absurd hfits (ih.2 hverdict left hleft)
    · obtain ⟨other, hother, hfits⟩ := h.exists_suffix
      exact ih.2 hends other (hother.trans hleft) hfits
  | case6 token tokens hany =>
    have hnil : ¬ Fits (token :: tokens) [] := by
      intro h
      obtain ⟨_, _, hname, _⟩ := h.of_ne_anyChars hany
      cases hname
    refine ⟨iff_of_false nofun hnil, fun _ left hleft => ?_⟩
    rw [List.suffix_nil.1 hleft]
    exact hnil
  | case7 token tokens c name hany hadmits ih =>
    refine ⟨ih.1.trans ⟨.one hadmits, fun h => ?_⟩, fun hends left hleft h => ?_⟩
    · obtain ⟨_, _, hname, _, hrest⟩ := h.of_ne_anyChars hany
      cases hname
      exact hrest
    · obtain ⟨d, rest, rfl, _, hrest⟩ := h.of_ne_anyChars hany
      have hsuffix : rest <:+ name := by
        rcases List.suffix_cons_iff.1 hleft with heq | hleft
        · cases heq
          exact List.suffix_rfl
        · exact (List.suffix_cons d rest).trans hleft
      exact ih.2 hends rest hsuffix hrest
  | case8 token tokens c name hany hadmits =>
    refine ⟨iff_of_false nofun fun h => ?_, nofun⟩
    obtain ⟨_, _, hname, hadmits', _⟩ := h.of_ne_anyChars hany
    cases hname
    exact hadmits hadmits'

/-- A name is found to match exactly if the elements stand for it. -/
theorem matchesName_iff {tokens : List Token} {name : List Char} :
    matchesName tokens name = true ↔ Fits tokens name := by
  rw [matchesName, beq_iff_eq]
  exact (compare_spec tokens name).1

end BinaryLayout.Glob
