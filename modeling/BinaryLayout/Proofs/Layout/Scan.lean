import BinaryLayout.Proofs.Layout.Reads
import Mathlib.Logic.Relation

/-!
# Reading with the open groups on a stack

The reader of layouts goes into a group and comes back from it.  Seen from the text there is no such
detour: tokens come one after the other, an opening bracket puts a group on a stack, and a closing
one takes it off.

There are two groups.

* The machine.  `Scan` is a reader in the middle of a text, `Scan.next?` reads one token, and
  `Scan.Reaches` says where a run of such steps comes to.
* The machine and the reader.  `Scan.finish` is what the reader makes of the rest of the text, group
  by group from the innermost one outwards.  One step of the machine is one step of it
  (`finish_eq`), so a text is refused exactly for the reason that the machine meets
  (`Layout.parse_eq_error_iff`).
-/

namespace BinaryLayout

/-! ## The machine -/

/-- A reader in the middle of a text. -/
structure Scan where
  /-- The kinds of the open groups, the innermost one first. -/
  stack : List GroupKind
  /-- What is left of the text. -/
  text : List Char
deriving DecidableEq, Repr

namespace Scan

/-- A reader in front of a text. -/
def start (text : List Char) : Scan := ⟨[], text⟩

/-- Whether the next token stands directly inside a record. -/
def inRecord (scan : Scan) : Bool := scan.stack.head? == some .record

/-- Reads one token.  There is none at the end of the text, where no group may be open. -/
def next? (limit : Nat) (scan : Scan) : Except FormatError (Option Scan) :=
  match Token.next? scan.inRecord scan.text with
  | .error e => .error e
  | .ok none =>
    match scan.stack with
    | [] => .ok none
    | kind :: _ => .error (.unterminatedGroup kind)
  | .ok (some (token, rest)) =>
    match token.code with
    | .field _ => .ok (some ⟨scan.stack, rest⟩)
    | .opening kind =>
      if token.count.getD 1 = 0 then .error (.zeroRepeat kind)
      else if limit ≤ scan.stack.length then .error (.tooDeep limit)
      else .ok (some ⟨kind :: scan.stack, rest⟩)
    | .closing => .ok (some ⟨scan.stack.tail, rest⟩)
    | .blank => .ok (some ⟨scan.stack, rest⟩)

/-- Reading one token leads from one place to another. -/
def Goes (limit : Nat) (scan next : Scan) : Prop := scan.next? limit = .ok (some next)

/-- Reading tokens leads from one place to another. -/
def Reaches (limit : Nat) : Scan → Scan → Prop := Relation.ReflTransGen (Goes limit)

variable {limit : Nat} {scan next : Scan}

/-- A step reads a token and leaves what is behind it. -/
theorem Goes.token (h : Goes limit scan next) :
    ∃ token, Token.next? scan.inRecord scan.text = .ok (some (token, next.text)) := by
  unfold Goes next? at h
  split at h
  · cases h
  · split at h <;> cases h
  · next token rest htoken =>
    have hrest : next.text = rest := by
      split at h
      · cases h
        rfl
      · split at h
        · cases h
        split at h
        · cases h
        cases h
        rfl
      · cases h
        rfl
      · cases h
        rfl
    exact ⟨token, hrest ▸ htoken⟩

theorem Goes.length_lt (h : Goes limit scan next) : next.text.length < scan.text.length := by
  obtain ⟨token, htoken⟩ := h.token
  exact Token.length_of_next? htoken

/-! ## The machine and the reader -/

/-- What the reader makes of the rest of a text in which groups of these kinds are open. -/
def finishFrom (limit : Nat) : List GroupKind → List Char → Except FormatError Unit
  | [], text => do
    let _ ← Layout.parseFrom limit none 0 text
    .ok ()
  | kind :: outer, text => do
    let (_, behind) ← Layout.parseFrom limit (some kind) (outer.length + 1) text
    finishFrom limit outer behind

/-- What the reader makes of the rest of a text. -/
def finish (limit : Nat) (scan : Scan) : Except FormatError Unit :=
  finishFrom limit scan.stack scan.text

/-- What the reader makes of a text behind the group that it has read. -/
def leave (limit : Nat) : List GroupKind → List Char → Except FormatError Unit
  | [], _ => .ok ()
  | _ :: outer, text => finishFrom limit outer text

/-- The innermost group is read first, then what is behind it. -/
theorem finishFrom_eq (limit : Nat) (stack : List GroupKind) (text : List Char) :
    finishFrom limit stack text =
      Layout.parseFrom limit stack.head? stack.length text >>= fun read =>
        leave limit stack read.2 := by
  cases stack with
  | nil => rfl
  | cons kind outer => rfl

/-- One step of the machine is one step of the reader. -/
theorem finish_eq (limit : Nat) (scan : Scan) :
    scan.finish limit =
      match scan.next? limit with
      | .error e => .error e
      | .ok none => .ok ()
      | .ok (some next) => next.finish limit := by
  obtain ⟨stack, text⟩ := scan
  rw [finish, finishFrom_eq, Layout.parseFrom_eq, next?, inRecord]
  dsimp only
  cases Token.next? (stack.head? == some .record) text with
  | error e => rfl
  | ok found =>
    cases found with
    | none => cases stack <;> rfl
    | some found =>
      obtain ⟨token, rest⟩ := found
      dsimp only
      cases token.code with
      | field f =>
        dsimp only
        rw [finish, finishFrom_eq]
        cases Layout.parseFrom limit stack.head? stack.length rest <;> rfl
      | opening kind =>
        dsimp only
        split
        · rfl
        split
        · rfl
        dsimp only
        rw [finish, finishFrom]
        cases Layout.parseFrom limit (some kind) (stack.length + 1) rest with
        | error e => rfl
        | ok read =>
          obtain ⟨body, behind⟩ := read
          show _ = finishFrom limit stack behind
          rw [finishFrom_eq]
          simp only [bind, Except.bind]
          cases Layout.parseFrom limit stack.head? stack.length behind <;> rfl
      | closing =>
        cases stack with
        | nil => rfl
        | cons kind outer => rfl
      | blank =>
        dsimp only
        rw [finish, finishFrom_eq]

/-- The reader makes the same of a text wherever the machine stands in it. -/
theorem Reaches.finish_eq (h : Reaches limit scan next) :
    scan.finish limit = next.finish limit := by
  induction h with
  | refl => rfl
  | tail _ step ih => rw [ih, Scan.finish_eq, step]

/-- The reader fails for the reason that the machine meets. -/
theorem finish_eq_error_iff {scan : Scan} {e : FormatError} :
    scan.finish limit = .error e ↔
      ∃ last, Reaches limit scan last ∧ last.next? limit = .error e := by
  constructor
  · intro h
    rw [Scan.finish_eq] at h
    split at h
    · next failure hstep =>
      cases h
      exact ⟨scan, .refl, hstep⟩
    · cases h
    · next next hstep =>
      have hgoes : Goes limit scan next := hstep
      have hshorter := hgoes.length_lt
      obtain ⟨last, hreaches, hfails⟩ := finish_eq_error_iff.1 h
      exact ⟨last, .head hgoes hreaches, hfails⟩
  · rintro ⟨last, hreaches, hfails⟩
    rw [hreaches.finish_eq, Scan.finish_eq, hfails]
termination_by scan.text.length

end Scan

/-- A text is refused for the reason that the machine meets in it. -/
theorem Layout.parse_eq_error_iff {limit : Nat} {text : List Char} {e : FormatError} :
    parse limit text = .error e ↔
      ∃ last, Scan.Reaches limit (.start text) last ∧ last.next? limit = .error e := by
  have hfinish : parse limit text = .error e ↔ (Scan.start text).finish limit = .error e := by
    show _ ↔ (Layout.parseFrom limit none 0 text >>= fun _ => .ok ()) = .error e
    rw [parse]
    cases parseFrom limit none 0 text <;> simp [bind, Except.bind]
  rw [hfinish, Scan.finish_eq_error_iff]

end BinaryLayout
