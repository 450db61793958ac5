import BinaryLayout.Layout.Basic

/-!
# Reading a layout

Reading goes from token to token. An opening bracket starts a group, whose body is read first and
then whatever follows its closing bracket. At top level the end of the text ends the layout and a
closing bracket means nothing; in a group it is the other way round.

Each token leaves a shorter text behind, which is why reading ends. `Layout.parseFrom_eq` unfolds
one token without mention of lengths.
-/

namespace BinaryLayout

/-! ## What a token leaves is shorter -/

theorem Count.length_read_le (text : List Char) : (Count.read text).2.length ≤ text.length :=
  List.IsSuffix.length_le (List.dropWhile_suffix _)

theorem FieldName.length_seek_le (text : List Char) : (seek text).length ≤ text.length := by
  fun_induction seek text <;> grind

theorem FieldName.length_lt_of_read? {text name rest : List Char}
    (h : read? text = some (name, rest)) : rest.length < text.length := by
  fun_induction read? text generalizing name rest with
  | case1 | case3 | case4 => simp at h
  | case2 => grind
  | case5 _ _ _ _ ih | case6 _ _ _ _ _ ih =>
    obtain ⟨⟨more, left⟩, hr, he⟩ := Option.map_eq_some_iff.1 h
    have := ih hr
    grind

theorem FieldName.length_le_of_next? {text name rest : List Char}
    (h : next? text = .ok (some (name, rest))) : rest.length ≤ text.length := by
  have hseek := length_seek_le text
  unfold next? at h
  split at h
  · simp at h
  · rename_i c tail hs
    rw [hs] at hseek
    split at h
    · simp only [Except.ok.injEq, Option.some.injEq, Prod.mk.injEq] at h
      rw [← h.2]
      exact hseek
    · split at h
      · rename_i n r hr
        simp only [Except.ok.injEq, Option.some.injEq, Prod.mk.injEq] at h
        have h₁ := length_lt_of_read? hr
        have h₂ := List.IsSuffix.length_le (List.dropWhile_suffix Text.isAsciiBlank (l := r))
        rw [← h.2]
        omega
      · simp at h

theorem Token.length_lt_of_code? {text rest : List Char} {code : Code}
    (h : code? text = some (code, rest)) : rest.length < text.length := by
  unfold code? at h
  split at h <;> grind

theorem Token.length_lt_of_read? {name : Option String} {text rest : List Char} {token : Token}
    (h : read? name text = some (token, rest)) : rest.length < text.length := by
  simp only [read?, Option.map_eq_some_iff] at h
  obtain ⟨⟨code, tail⟩, hc, he⟩ := h
  have h₁ := length_lt_of_code? hc
  have h₂ := Count.length_read_le tail
  simp only [Prod.mk.injEq] at he
  rw [← he.2]
  omega

/-- A token takes at least one character. -/
theorem Token.length_of_next? {inRecord : Bool} {text rest : List Char} {token : Token}
    (h : next? inRecord text = .ok (some (token, rest))) : rest.length < text.length := by
  unfold next? at h
  split at h
  · split at h
    · simp at h
    · simp at h
    · rename_i n r hn
      have h₁ := FieldName.length_le_of_next? hn
      have h₂ := length_lt_of_read? (Except.ok.inj h)
      omega
  · exact length_lt_of_read? (Except.ok.inj h)

/-! ## Reading -/

namespace Layout

/-- A layout with the text after it, which is no longer than the text it was read from. -/
abbrev Parsed (text : List Char) := { r : Layout × List Char // r.2.length ≤ text.length }

/-- Reads a layout up to the end of the group it stands in, or up to the end of the text if it
stands in none. At most `limit` groups may stand inside one another, of which `depth` are open. -/
def parseWithin (limit : Nat) (within : Option GroupKind) (depth : Nat) (text : List Char) :
    Except FormatError (Parsed text) :=
  match h : Token.next? (within == some .record) text with
  | .error e => .error e
  | .ok none =>
    match within with
    | some kind => .error (.unterminatedGroup kind)
    | none => .ok ⟨(.done, []), Nat.zero_le _⟩
  | .ok (some (token, rest)) =>
    have hr : rest.length < text.length := Token.length_of_next? h
    have hle : rest.length ≤ text.length := Nat.le_of_lt hr
    let count := token.count.getD 1
    match token.code with
    | .field f =>
      match parseWithin limit within depth rest with
      | .error e => .error e
      | .ok ⟨(more, left), hl⟩ =>
        .ok ⟨(.field token.name f count more, left), Nat.le_trans hl hle⟩
    | .opening kind =>
      if count = 0 then .error (.zeroRepeat kind)
      else if limit ≤ depth then .error (.tooDeep limit)
      else
        match parseWithin limit (some kind) (depth + 1) rest with
        | .error e => .error e
        | .ok ⟨(body, behind), hb⟩ =>
          match parseWithin limit within depth behind with
          | .error e => .error e
          | .ok ⟨(more, left), hl⟩ =>
            .ok ⟨(.group token.name kind count body more, left),
              Nat.le_trans hl (Nat.le_trans hb hle)⟩
    | .closing =>
      if within.isSome then .ok ⟨(.done, rest), hle⟩
      else
        match parseWithin limit within depth rest with
        | .error e => .error e
        | .ok ⟨(more, left), hl⟩ => .ok ⟨(more, left), Nat.le_trans hl hle⟩
    | .blank =>
      match parseWithin limit within depth rest with
      | .error e => .error e
      | .ok ⟨(more, left), hl⟩ => .ok ⟨(more, left), Nat.le_trans hl hle⟩
termination_by text.length
decreasing_by all_goals grind

/-- Reads a layout and gives the text after it. -/
def parseFrom (limit : Nat) (within : Option GroupKind) (depth : Nat) (text : List Char) :
    Except FormatError (Layout × List Char) :=
  match parseWithin limit within depth text with
  | .error e => .error e
  | .ok parsed => .ok parsed.1

/-- Reading takes nothing back. -/
theorem length_le_of_parseFrom {limit : Nat} {within : Option GroupKind} {depth : Nat}
    {text left : List Char} {layout : Layout}
    (h : parseFrom limit within depth text = .ok (layout, left)) : left.length ≤ text.length := by
  unfold parseFrom at h
  split at h
  · simp at h
  · next parsed _ =>
    have hleft : parsed.1.2 = left := congrArg Prod.snd (Except.ok.inj h)
    exact hleft ▸ parsed.2

/-- Reading one token at a time. -/
theorem parseFrom_eq (limit : Nat) (within : Option GroupKind) (depth : Nat) (text : List Char) :
    parseFrom limit within depth text =
      match Token.next? (within == some .record) text with
      | .error e => .error e
      | .ok none =>
        match within with
        | some kind => .error (.unterminatedGroup kind)
        | none => .ok (.done, [])
      | .ok (some (token, rest)) =>
        match token.code with
        | .field f => do
          let (more, left) ← parseFrom limit within depth rest
          .ok (.field token.name f (token.count.getD 1) more, left)
        | .opening kind =>
          if token.count.getD 1 = 0 then .error (.zeroRepeat kind)
          else if limit ≤ depth then .error (.tooDeep limit)
          else do
            let (body, behind) ← parseFrom limit (some kind) (depth + 1) rest
            let (more, left) ← parseFrom limit within depth behind
            .ok (.group token.name kind (token.count.getD 1) body more, left)
        | .closing =>
          if within.isSome then .ok (.done, rest) else parseFrom limit within depth rest
        | .blank => parseFrom limit within depth rest := by
  unfold parseFrom
  generalize hw : parseWithin limit within depth text = result
  rw [parseWithin] at hw
  split at hw
  · next e ht =>
    subst hw
    simp [ht]
  · next ht =>
    cases within <;> subst hw <;> simp only [ht]
  · next token rest ht =>
    simp only [ht]
    split at hw
    · next =>
      cases h : parseWithin limit within depth rest <;> rw [h] at hw <;> subst hw <;> rfl
    · next kind _ =>
      by_cases h₀ : token.count.getD 1 = 0
      · simp only [h₀, if_true] at hw ⊢
        subst hw
        rfl
      · by_cases h₁ : limit ≤ depth
        · simp only [h₀, h₁, if_true, if_false] at hw ⊢
          subst hw
          rfl
        · simp only [h₀, h₁, if_false] at hw ⊢
          cases hb : parseWithin limit (some kind) (depth + 1) rest with
          | error e => rw [hb] at hw; subst hw; rfl
          | ok parsed =>
            rw [hb] at hw
            obtain ⟨⟨body, behind⟩, hl⟩ := parsed
            simp only [bind, Except.bind] at hw ⊢
            cases hm : parseWithin limit within depth behind <;> rw [hm] at hw <;> subst hw <;> rfl
    · next =>
      split at hw
      · next h₀ => subst hw; simp [h₀]
      · next h₀ =>
        simp only [h₀]
        cases h : parseWithin limit within depth rest <;> rw [h] at hw <;> subst hw <;> rfl
    · next =>
      cases h : parseWithin limit within depth rest <;> rw [h] at hw <;> subst hw <;> rfl

/-- Reads a whole text, in which at most `limit` groups may stand inside one another. -/
def parse (limit : Nat) (text : List Char) : Except FormatError Layout := do
  let (layout, _) ← parseFrom limit none 0 text
  .ok layout

end Layout

end BinaryLayout
