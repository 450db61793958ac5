import BinaryLayout.Proofs.Files.Under
import BinaryLayout.Proofs.Glob.Compare
import Mathlib.Data.List.Forall2
import Mathlib.Data.List.TakeWhile

/-!
# Patterns that stand for their own text

A path may hold stars and question marks as they are, and is then taken as a pattern.  If it is one,
and has no class in it, each of its parts stands for its own text among other names.

There are three groups.

* Elements.  `readTokens_eq_ok` says which elements a text without classes is read as, and
  `fits_self` that they stand for the text.
* Parts.  `Spells` puts the parts of a pattern beside the texts between the slashes of a path.
  Stars for any number of directories may be written several times, and are then one part.
* Patterns.  `spells_of_ofText` is the whole: a path that is read as a pattern spells itself.
-/

namespace BinaryLayout.Glob

/-! ## Elements -/

/-- The element that a character is where there are no classes. -/
def element (c : Char) : Token :=
  if c = '?' then .anyChar else if c = '*' then .anyChars else .char c

/-- A text is among the names that its elements stand for. -/
theorem fits_self (text : List Char) : Fits (text.map element) text := by
  induction text with
  | nil => exact .nil
  | cons c text ih =>
    rw [List.map_cons, element]
    split
    · exact .one rfl ih
    split
    · exact .more (.none ih)
    · exact .one (beq_self_eq_true c) ih

/-- Any number of directories begin a part: in front of them stands nothing, or a slash. -/
theorem map_element_cons {c : Char} {text : List Char} {tokens : List Token} (hc : c ≠ '/')
    (ih : ∀ {more : List Token}, readTokens (some c) text = .ok more →
      more = text.map element ∨
        (some c).all (· == '/') = true ∧ text = ['*', '*'] ∧ more = [.anyDepth])
    (h : (readTokens (some c) text).map (element c :: ·) = .ok tokens) :
    tokens = (c :: text).map element := by
  cases hread : readTokens (some c) text with
  | error e =>
    rw [hread] at h
    cases h
  | ok more =>
    rw [hread] at h
    cases h
    rcases ih hread with rfl | ⟨hall, _⟩
    · rfl
    · exact absurd (by simpa using hall) hc

/-- What a part without classes is read as: its characters one by one, or any number of
directories. -/
theorem readTokens_eq_ok {before : Option Char} {text : List Char} {tokens : List Token}
    (h : readTokens before text = .ok tokens) (hclass : '[' ∉ text) (hslash : '/' ∉ text) :
    tokens = text.map element ∨
      before.all (· == '/') = true ∧ text = ['*', '*'] ∧ tokens = [.anyDepth] := by
  fun_induction readTokens before text generalizing tokens with
  | case1 =>
    cases h
    exact .inl rfl
  | case2 _ _ ih =>
    simp only [List.mem_cons, not_or] at hclass hslash
    exact .inl (map_element_cons (by decide) (fun hmore => ih hmore hclass.2 hslash.2) h)
  | case3 _ _ _ _ _ ih =>
    simp only [List.mem_cons, not_or] at hclass hslash
    exact .inl (map_element_cons (by decide) (fun hmore => ih hmore hclass.2 hslash.2) h)
  | case4 before rest _ hcount hbefore hrest =>
    cases h
    have hstars : rest.takeWhile (· == '*') = rest := by
      have happend := List.takeWhile_append_dropWhile (p := (· == '*')) (l := rest)
      rwa [hrest, List.append_nil] at happend
    have hall := List.takeWhile_eq_self_iff.1 hstars
    rw [hstars] at hcount
    obtain ⟨c, rfl⟩ := List.length_eq_one_iff.1 hcount
    have hc : c = '*' := by simpa using hall c List.mem_cons_self
    subst hc
    exact .inr ⟨hbefore, rfl, rfl⟩
  | case5 _ rest _ _ _ left _ hrest =>
    have hmem : '/' ∈ rest := (List.dropWhile_suffix _).subset (hrest ▸ List.mem_cons_self)
    exact absurd (List.mem_cons_of_mem _ hmem) hslash
  | case6 | case7 | case8 => cases h
  | case9 | case10 => exact absurd List.mem_cons_self hclass
  | case11 _ c rest hany hstar hopen ih =>
    have helement : element c = .char c := by rw [element, if_neg hany, if_neg hstar]
    simp only [List.mem_cons, not_or] at hclass hslash
    rw [← helement] at h
    exact .inl (map_element_cons (Ne.symm hslash.1) (fun hmore => ih hmore hclass.2 hslash.2) h)

/-! ## Parts -/

/-- A part of a pattern stands for a name, among others. -/
inductive Part.StandsFor : Part → String → Prop
  | literal (name : String) : StandsFor (.literal name) name
  | names {tokens : List Token} {name : String} (fits : Fits tokens name.toList)
    (isName : Path.IsName name) : StandsFor (.names tokens) name
  | anyDepth : StandsFor .anyDepth "**"

theorem literal?_map_element {text name : List Char}
    (h : literal? (text.map element) = some name) : name = text := by
  induction text generalizing name with
  | nil =>
    cases h
    rfl
  | cons c text ih =>
    rw [List.map_cons, element] at h
    split at h
    · cases h
    split at h
    · cases h
    · obtain ⟨rest, hrest, rfl⟩ := Option.map_eq_some_iff.1 h
      rw [ih hrest]

/-- A part without classes stands for its own text. -/
theorem standsFor_ofTokens {text : List Char} {tokens : List Token}
    (h : readTokens none text = .ok tokens) (hclass : '[' ∉ text) (hslash : '/' ∉ text) :
    (Part.ofTokens tokens).StandsFor (String.ofList text) := by
  rcases readTokens_eq_ok h hclass hslash with rfl | ⟨_, rfl, rfl⟩
  · have hdepth : text.map element ≠ [.anyDepth] := by
      intro heq
      obtain ⟨c, _, _, hc, _⟩ := List.map_eq_cons_iff.1 heq
      unfold element at hc
      split at hc
      · cases hc
      split at hc <;> cases hc
    rw [Part.ofTokens, if_neg hdepth]
    cases hliteral : literal? (text.map element) with
    | some name =>
      rw [literal?_map_element hliteral]
      exact .literal _
    | none =>
      have hplain (plain : List Char) (hread : (literal? (plain.map element)).isSome = true) :
          String.ofList text ≠ String.ofList plain := by
        intro heq
        rw [String.ofList_inj.1 heq] at hliteral
        rw [hliteral] at hread
        cases hread
      refine .names ?_ ⟨Bool.eq_false_iff.2 fun hidle => ?_, hplain ['.', '.'] rfl⟩
      · rw [String.toList_ofList]
        exact fits_self text
      · rcases Path.isIdle_iff.1 hidle with heq | heq
        · exact hplain [] rfl heq
        · exact hplain ['.'] rfl heq
  · exact .anyDepth

/-- The parts of a pattern stand for some names, one by one, but one part `**` for all such names
that follow one another. -/
inductive Spells : List Part → List String → Prop
  | nil : Spells [] []
  | literal {parts : List Part} {names : List String} (name : String) (rest : Spells parts names) :
    Spells (.literal name :: parts) (name :: names)
  | names {tokens : List Token} {name : String} {parts : List Part} {names : List String}
    (fits : Fits tokens name.toList) (isName : Path.IsName name) (rest : Spells parts names) :
    Spells (.names tokens :: parts) (name :: names)
  | anyDepth {parts : List Part} {names : List String} (n : Nat)
    (last : parts.head? ≠ some .anyDepth) (rest : Spells parts names) :
    Spells (.anyDepth :: parts) (List.replicate (n + 1) "**" ++ names)

/-- One more name `**` in front of others. -/
theorem Spells.again {parts : List Part} {names : List String} (h : Spells parts names)
    (hhead : parts.head? = some .anyDepth) : Spells parts ("**" :: names) := by
  cases h with
  | nil => cases hhead
  | literal | names => cases hhead
  | anyDepth n last rest => exact .anyDepth (n + 1) last rest

theorem head?_collapse (parts : List Part) : (collapse parts).head? = parts.head? := by
  fun_induction collapse parts with
  | case1 parts ih => exact ih
  | case2 | case3 => rfl

theorem spells_collapse {parts : List Part} {names : List String}
    (h : List.Forall₂ Part.StandsFor parts names) : Spells (collapse parts) names := by
  fun_induction collapse parts generalizing names with
  | case1 parts ih =>
    cases h with
    | cons first rest =>
      cases first
      exact (ih rest).again (head?_collapse _)
  | case2 part parts hone ih =>
    cases h with
    | cons first rest =>
      have hrest := ih rest
      cases first with
      | literal => exact .literal _ hrest
      | names fits isName => exact .names fits isName hrest
      | anyDepth =>
        refine .anyDepth 0 ?_ hrest
        rw [head?_collapse]
        intro hhead
        obtain ⟨more, rfl⟩ := List.head?_eq_some_iff.1 hhead
        exact hone more rfl rfl
  | case3 =>
    cases h
    exact .nil

/-! ## Patterns -/

/-- A text that is read part by part stands for itself. -/
theorem standsFor_of_mapM {texts : List (List Char)} {parts : List Part}
    (h : texts.mapM (fun text => do return Part.ofTokens (← readTokens none text)) = .ok parts)
    (htexts : ∀ text ∈ texts, '[' ∉ text ∧ '/' ∉ text) :
    List.Forall₂ Part.StandsFor parts (texts.map String.ofList) := by
  induction texts generalizing parts with
  | nil =>
    cases h
    exact .nil
  | cons text texts ih =>
    rw [List.mapM_cons, bind_eq_ok] at h
    obtain ⟨part, hpart, h⟩ := h
    obtain ⟨more, hmore, h⟩ := bind_eq_ok.1 h
    obtain ⟨tokens, htokens, hof⟩ := bind_eq_ok.1 hpart
    cases h
    cases hof
    obtain ⟨hclass, hslash⟩ := htexts text List.mem_cons_self
    exact .cons (standsFor_ofTokens htokens hclass hslash)
      (ih hmore fun other hother => htexts other (List.mem_cons_of_mem _ hother))

/-- A text that does not end in a slash ends in a part that is not empty. -/
theorem getLast?_split_ne {text : List Char} (hne : text ≠ []) (hslash : text.getLast? ≠ some '/') :
    (Path.split text).getLast? ≠ some [] := by
  induction text with
  | nil => exact absurd rfl hne
  | cons c rest ih =>
    by_cases hrest : rest = []
    · subst hrest
      have hc : c ≠ '/' := fun heq => hslash (congrArg some heq)
      rw [Path.split, if_neg hc]
      simp [Path.split]
    · have hlast : (c :: rest).getLast? = rest.getLast? := List.getLast?_cons_of_ne_nil hrest
      rw [hlast] at hslash
      have hparts := ih hrest hslash
      by_cases hc : c = '/'
      · subst hc
        show ([] :: Path.split rest).getLast? ≠ some []
        rw [List.getLast?_cons_of_ne_nil (Path.split_ne_nil rest)]
        exact hparts
      · obtain ⟨part, parts, hsplit, hcons⟩ := Path.split_cons_of_ne hc rest
        rw [hsplit] at hparts
        rw [hcons]
        cases parts with
        | nil => simp
        | cons next parts => exact hparts

theorem partTexts_eq {text : List Char} (hne : text ≠ []) (hslash : text.getLast? ≠ some '/') :
    partTexts text = Path.split text := by
  rw [partTexts, if_neg]
  simpa using getLast?_split_ne hne hslash

/-- The text behind the slash in front, if there is one. -/
theorem exists_behind_root {text : String} (hne : text ≠ "")
    (hslash : text.toList.getLast? ≠ some '/') :
    ∃ rest, (if Path.isAbsolute text then text.toList.tail else text.toList) = rest ∧ rest ≠ [] ∧
      rest.getLast? ≠ some '/' ∧ rest <:+ text.toList ∧
        Path.split text.toList =
          if Path.isAbsolute text then [] :: Path.split rest else Path.split rest := by
  by_cases hroot : Path.isAbsolute text = true
  · obtain ⟨rest, hrest⟩ := List.head?_eq_some_iff.1 (Path.isAbsolute_iff.1 hroot)
    have hnotNil : rest ≠ [] := by
      rintro rfl
      rw [hrest] at hslash
      exact hslash rfl
    rw [hrest, List.getLast?_cons_of_ne_nil hnotNil] at hslash
    rw [if_pos hroot, hrest]
    exact ⟨rest, rfl, hnotNil, hslash, List.suffix_cons '/' rest, (if_pos hroot).symm⟩
  · have hnotNil : text.toList ≠ [] := fun hnil => hne (String.toList_eq_nil_iff.1 hnil)
    rw [if_neg hroot]
    exact ⟨text.toList, rfl, hnotNil, hslash, List.suffix_rfl, (if_neg hroot).symm⟩

/-- A path that is read as a pattern, without a class in it and without a slash at its end, spells
itself. -/
theorem spells_of_ofText {text : String} {pattern : Pattern} (h : Pattern.ofText text = .ok pattern)
    (hne : text ≠ "") (hclass : '[' ∉ text.toList) (hslash : text.toList.getLast? ≠ some '/') :
    pattern.absolute = Path.isAbsolute text ∧ pattern.directoriesOnly = false ∧
      ∃ names, names ≠ [] ∧ Spells pattern.parts names ∧ (∀ name ∈ names, '/' ∉ name.toList) ∧
        Path.parts text = if Path.isAbsolute text then "" :: names else names := by
  obtain ⟨_, _, h⟩ := bind_eq_ok.1 h
  obtain ⟨parts, hparts, h⟩ := bind_eq_ok.1 h
  cases h
  have habsolute : (text.toList.head? == some '/') = Path.isAbsolute text := by
    rw [Bool.eq_iff_iff, Path.isAbsolute_iff, beq_iff_eq]
  refine ⟨habsolute, by simpa using hslash, ?_⟩
  rw [habsolute] at hparts
  obtain ⟨rest, hrest, hnotNil, hlast, hsuffix, htext⟩ := exists_behind_root hne hslash
  rw [hrest, partTexts_eq hnotNil hlast] at hparts
  have hmem (part : List Char) (hpart : part ∈ Path.split rest) : '[' ∉ part ∧ '/' ∉ part := by
    obtain ⟨hslash, hsub⟩ := Path.of_mem_split hpart
    exact ⟨fun hopen => hclass (hsuffix.subset (hsub _ hopen)), hslash⟩
  refine ⟨(Path.split rest).map String.ofList, ?_, spells_collapse (standsFor_of_mapM hparts hmem),
    fun name hname => ?_, ?_⟩
  · rw [ne_eq, List.map_eq_nil_iff]
    exact Path.split_ne_nil rest
  · obtain ⟨part, hpart, rfl⟩ := List.mem_map.1 hname
    rw [String.toList_ofList]
    exact (hmem part hpart).2
  · rw [Path.parts, htext]
    split <;> rfl

end BinaryLayout.Glob
