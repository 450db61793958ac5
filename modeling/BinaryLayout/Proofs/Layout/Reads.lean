import BinaryLayout.Layout.Parse
import BinaryLayout.Proofs.Success

/-!
# What reading a layout accepts

`Layout.Reads` says which layout a text stands for, one rule for each thing that a token can mean.
`reads_of_parseFrom` derives it from the reader, so that what holds of every layout that was read
is proved by induction over the rules.

`Layout.IsNamed` is the first such property: names stand where a record asks for them and nowhere
else.
-/

namespace BinaryLayout

namespace Layout

/-- The text stands for the layout and leaves the rest, inside the given group and with `depth`
groups open. -/
inductive Reads (limit : Nat) : Option GroupKind → Nat → List Char → Layout → List Char → Prop where
  /-- The text ends at top level. -/
  | ended {depth text}
      (next : Token.next? false text = .ok none) :
      Reads limit none depth text .done []
  | field {within depth text token rest f more left}
      (next : Token.next? (within == some .record) text = .ok (some (token, rest)))
      (code : token.code = .field f)
      (tail : Reads limit within depth rest more left) :
      Reads limit within depth text (.field token.name f (token.count.getD 1) more) left
  | group {within depth text token rest kind body behind more left}
      (next : Token.next? (within == some .record) text = .ok (some (token, rest)))
      (code : token.code = .opening kind)
      (repeats : token.count.getD 1 ≠ 0)
      (room : depth < limit)
      (inside : Reads limit (some kind) (depth + 1) rest body behind)
      (tail : Reads limit within depth behind more left) :
      Reads limit within depth text (.group token.name kind (token.count.getD 1) body more) left
  /-- The group that is read ends. -/
  | closed {kind depth text token rest}
      (next : Token.next? (some kind == some .record) text = .ok (some (token, rest)))
      (code : token.code = .closing) :
      Reads limit (some kind) depth text .done rest
  /-- A token that means nothing, such as a closing bracket at top level. -/
  | skipped {within depth text token rest layout left}
      (next : Token.next? (within == some .record) text = .ok (some (token, rest)))
      (code : token.code = .blank ∨ token.code = .closing ∧ within = none)
      (tail : Reads limit within depth rest layout left) :
      Reads limit within depth text layout left

/-- What the reader accepts is read by the rules. -/
theorem reads_of_parseFrom {limit : Nat} {within : Option GroupKind} {depth : Nat}
    {text left : List Char} {layout : Layout}
    (h : parseFrom limit within depth text = .ok (layout, left)) :
    Reads limit within depth text layout left := by
  rw [parseFrom_eq] at h
  split at h
  · cases h
  · next hn =>
    cases within with
    | some kind => cases h
    | none =>
      cases h
      exact .ended hn
  · next token rest hn =>
    have hr : rest.length < text.length := Token.length_of_next? hn
    split at h
    · next f hc =>
      obtain ⟨⟨more, behind⟩, hp, h⟩ := bind_eq_ok.1 h
      cases h
      exact .field hn hc (reads_of_parseFrom hp)
    · next kind hc =>
      split at h
      · cases h
      · next hzero =>
        split at h
        · cases h
        · next hroom =>
          obtain ⟨⟨body, behind⟩, hb, h⟩ := bind_eq_ok.1 h
          obtain ⟨⟨more, after⟩, hm, h⟩ := bind_eq_ok.1 h
          have hbehind : behind.length ≤ rest.length := length_le_of_parseFrom hb
          cases h
          exact .group hn hc hzero (by omega) (reads_of_parseFrom hb) (reads_of_parseFrom hm)
    · next hc =>
      split at h
      · next hw =>
        obtain ⟨kind, rfl⟩ := Option.isSome_iff_exists.1 hw
        cases h
        exact .closed hn hc
      · next hw =>
        have hnone : within = none := Option.not_isSome_iff_eq_none.1 hw
        exact .skipped hn (.inr ⟨hc, hnone⟩) (reads_of_parseFrom h)
    · next hc => exact .skipped hn (.inl hc) (reads_of_parseFrom h)
termination_by text.length

/-- A layout that was read as a whole was read at top level. -/
theorem reads_of_parse {limit : Nat} {text : List Char} {layout : Layout}
    (h : parse limit text = .ok layout) : ∃ left, Reads limit none 0 text layout left := by
  rw [parse, bind_eq_ok] at h
  obtain ⟨⟨found, left⟩, hp, h⟩ := h
  cases h
  exact ⟨left, reads_of_parseFrom hp⟩

/-! ## Names -/

/-- Every field and group directly inside a record has a name, and no other has one. -/
def IsNamed : Bool → Layout → Prop
  | _, .done => True
  | inRecord, .field name _ _ rest => name.isSome = inRecord ∧ rest.IsNamed inRecord
  | inRecord, .group name kind _ body rest =>
    name.isSome = inRecord ∧ body.IsNamed (kind == .record) ∧ rest.IsNamed inRecord

end Layout

/-- A token has a name exactly inside a record. -/
theorem Token.isSome_name_of_next? {inRecord : Bool} {text rest : List Char} {token : Token}
    (h : next? inRecord text = .ok (some (token, rest))) : token.name.isSome = inRecord := by
  have hread {name : Option String} {text : List Char}
      (h : read? name text = some (token, rest)) : token.name = name := by
    simp only [read?, Option.map_eq_some_iff] at h
    obtain ⟨_, _, he⟩ := h
    simp only [Prod.mk.injEq] at he
    rw [← he.1]
  unfold next? at h
  split at h
  · next hrec =>
    split at h
    · cases h
    · cases h
    · rw [hread (Except.ok.inj h), hrec]
      rfl
  · next hrec =>
    rw [hread (Except.ok.inj h)]
    simpa using hrec

namespace Layout

theorem Reads.isNamed {limit : Nat} {within : Option GroupKind} {depth : Nat}
    {text left : List Char} {layout : Layout} (h : Reads limit within depth text layout left) :
    layout.IsNamed (within == some .record) := by
  induction h with
  | ended | closed => trivial
  | field next _ _ ih => exact ⟨Token.isSome_name_of_next? next, ih⟩
  | @group _ _ _ _ _ kind _ _ _ _ next _ _ _ _ _ ihBody ihTail =>
    refine ⟨Token.isSome_name_of_next? next, ?_, ihTail⟩
    cases kind <;> exact ihBody
  | skipped _ _ _ ih => exact ih

end Layout

end BinaryLayout
