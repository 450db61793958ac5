import BinaryLayout.Proofs.Bytewise.Agreement
import BinaryLayout.Proofs.Bytewise.Scanner

/-!
# Reading a format turn by turn

A reader of bytes that keeps the open groups on a stack instead of going into them.  Every turn
reads one token, so the reader counts what it does: tokens, and groups that it opens.

There are three groups.

* The loop.  `Reader.turn` is one turn.  Every token leaves less of the bytes, so the loop ends.
* The books.  `Reader.Accounted` holds at every place: no more tokens have been read than bytes, no
  more groups have been opened than tokens read, and no more are open than the limit allows.
* The layout.  `Reader.unwind` is what `Bytewise.parseFrom` makes of the rest of the bytes, group
  by group from the innermost one outwards.  No turn changes it (`unwind_eq`), so the loop ends with
  the layout, or the error, that the bytes are read as.
-/

namespace BinaryLayout

namespace Layout

theorem append_done (layout : Layout) : layout ++ .done = layout := by
  induction layout with
  | done => rfl
  | field name f count rest ih => exact congrArg (field name f count) ih
  | group name kind count body rest _ ih => exact congrArg (group name kind count body) ih

theorem append_assoc (layout more rest : Layout) :
    layout ++ more ++ rest = layout ++ (more ++ rest) := by
  induction layout with
  | done => rfl
  | field name f count left ih => exact congrArg (field name f count) ih
  | group name kind count body left _ ih => exact congrArg (group name kind count body) ih

end Layout

namespace Bytewise

open Utf8 (encode)

/-! ## The loop -/

/-- A group that is open, with what stands in front of it in the group around it. -/
structure Frame where
  name : Option String
  kind : GroupKind
  count : Nat
  front : Layout

/-- What has been read up to the end of the group. -/
def Frame.close (frame : Frame) (body : Layout) : Layout :=
  frame.front ++ .group frame.name frame.kind frame.count body .done

/-- A reader in the middle of a format. -/
structure Reader where
  /-- The open groups, the innermost one first. -/
  opened : List Frame
  /-- What has been read of the innermost group. -/
  body : Layout
  /-- The bytes ahead. -/
  ahead : List UInt8
  /-- The number of tokens that have been read. -/
  tokens : Nat
  /-- The number of groups that have been opened. -/
  groups : Nat

namespace Reader

/-- A reader in front of a text. -/
def start (source : List Char) : Reader := ⟨[], .done, encode source, 0, 0⟩

/-- The kind of the innermost group. -/
def within (s : Reader) : Option GroupKind := s.opened.head?.map Frame.kind

/-- What a reader behind a token makes of it. -/
def take (limit : Nat) (token : Token) (s : Reader) : Reader × Option (Except FormatError Layout) :=
  match token.code with
  | .field f => ({ s with body := s.body ++ .field token.name f (token.count.getD 1) .done }, none)
  | .opening kind =>
    if token.count.getD 1 = 0 then (s, some (.error (.zeroRepeat kind)))
    else if limit ≤ s.opened.length then (s, some (.error (.tooDeep limit)))
    else
      let frame : Frame := ⟨token.name, kind, token.count.getD 1, s.body⟩
      ({ s with opened := frame :: s.opened, body := .done, groups := s.groups + 1 }, none)
  | .closing =>
    match s.opened with
    | [] => (s, none)
    | frame :: opened => ({ s with opened := opened, body := frame.close s.body }, none)
  | .blank => (s, none)

/-- One turn of the loop that reads `source`. -/
def turn (limit : Nat) (source : List Char) (s : Reader) :
    Reader × Option (Except FormatError Layout) :=
  match next? .lossy source (s.within == some .record) s.ahead with
  | .error e => (s, some (.error e))
  | .ok none =>
    match s.within with
    | some kind => (s, some (.error (.unterminatedGroup kind)))
    | none => (s, some (.ok s.body))
  | .ok (some (token, rest)) => take limit token { s with ahead := rest, tokens := s.tokens + 1 }

variable {limit : Nat} {source : List Char} {s next : Reader}

/-- A token is taken once and may open one group, if the limit allows it. -/
theorem take_cases (limit : Nat) (token : Token) (s : Reader) :
    (take limit token s).1.ahead = s.ahead ∧ (take limit token s).1.tokens = s.tokens ∧
      (take limit token s).1.groups ≤ s.groups + 1 ∧
        (s.opened.length ≤ limit → (take limit token s).1.opened.length ≤ limit) := by
  rw [take]
  split
  · exact ⟨rfl, rfl, Nat.le_succ _, id⟩
  · split
    · exact ⟨rfl, rfl, Nat.le_succ _, id⟩
    split
    · exact ⟨rfl, rfl, Nat.le_succ _, id⟩
    · next hlimit => exact ⟨rfl, rfl, Nat.le_refl _, fun _ => Nat.lt_of_not_le hlimit⟩
  · split
    · exact ⟨rfl, rfl, Nat.le_succ _, id⟩
    · next hopened =>
      refine ⟨rfl, rfl, Nat.le_succ _, fun hle => ?_⟩
      rw [hopened] at hle
      exact Nat.le_of_succ_le hle
  · exact ⟨rfl, rfl, Nat.le_succ _, id⟩

/-- Every turn that goes on takes a token, which leaves less. -/
theorem length_lt_of_turn (h : turn limit source s = (next, none)) :
    next.ahead.length < s.ahead.length := by
  rw [turn] at h
  split at h
  · cases h
  · split at h <;> cases h
  · next token rest htoken =>
    have hahead := (take_cases limit token { s with ahead := rest, tokens := s.tokens + 1 }).1
    rw [h] at hahead
    rw [hahead]
    exact length_lt_of_next? htoken

/-! ## The books -/

/-- What the numbers of a reader cannot exceed. -/
structure Accounted (limit : Nat) (source : List Char) (s : Reader) : Prop where
  tokens : s.tokens + s.ahead.length ≤ (encode source).length
  groups : s.groups ≤ s.tokens
  opened : s.opened.length ≤ limit

theorem accounted_start (limit : Nat) (source : List Char) :
    Accounted limit source (start source) :=
  ⟨Nat.le_of_eq (Nat.zero_add _), Nat.le_refl _, Nat.zero_le _⟩

theorem Accounted.turn (h : Accounted limit source s) :
    Accounted limit source (Reader.turn limit source s).1 := by
  rw [Reader.turn]
  split
  · exact h
  · split <;> exact h
  · next token rest htoken =>
    have hlt := length_lt_of_next? htoken
    have htokens := h.tokens
    have hgroups := h.groups
    obtain ⟨hahead, htaken, hopens, hlimit⟩ :=
      take_cases limit token { s with ahead := rest, tokens := s.tokens + 1 }
    dsimp only at hahead htaken hopens
    refine ⟨?_, by omega, hlimit h.opened⟩
    rw [hahead, htaken]
    omega

/-! ## The layout -/

/-- What the rest of the bytes comes to in which these groups are open. -/
def unwind (limit : Nat) (source : List Char) :
    List Frame → Layout → List UInt8 → Except FormatError Layout
  | [], body, ahead => do
    let (more, _) ← parseFrom .lossy source limit none 0 ahead
    .ok (body ++ more)
  | frame :: opened, body, ahead => do
    let (more, behind) ← parseFrom .lossy source limit (some frame.kind) (opened.length + 1) ahead
    unwind limit source opened (frame.close (body ++ more)) behind

/-- What the bytes behind the innermost group come to. -/
def leave (limit : Nat) (source : List Char) :
    List Frame → Layout → List UInt8 → Except FormatError Layout
  | [], body, _ => .ok body
  | frame :: opened, body, behind => unwind limit source opened (frame.close body) behind

/-- The innermost group is read first, then what is behind it. -/
theorem unwind_eq_bind (limit : Nat) (source : List Char) (opened : List Frame) (body : Layout)
    (ahead : List UInt8) :
    unwind limit source opened body ahead =
      parseFrom .lossy source limit (opened.head?.map Frame.kind) opened.length ahead >>=
        fun read => leave limit source opened (body ++ read.1) read.2 := by
  cases opened <;> rfl

/-- One turn of the loop is one step of the reader that goes into groups. -/
theorem unwind_eq (limit : Nat) (source : List Char) (s : Reader) :
    unwind limit source s.opened s.body s.ahead =
      match turn limit source s with
      | (_, some result) => result
      | (next, none) => unwind limit source next.opened next.body next.ahead := by
  obtain ⟨opened, body, ahead, tokens, groups⟩ := s
  rw [unwind_eq_bind, parseFrom_eq, turn, within]
  dsimp only
  cases next? .lossy source (opened.head?.map Frame.kind == some .record) ahead with
  | error e => rfl
  | ok found =>
    cases found with
    | none =>
      cases opened with
      | nil => exact congrArg Except.ok body.append_done
      | cons frame opened => rfl
    | some found =>
      obtain ⟨token, rest⟩ := found
      dsimp only
      rw [take]
      dsimp only
      cases token.code with
      | field f =>
        dsimp only
        rw [unwind_eq_bind]
        cases parseFrom .lossy source limit (opened.head?.map Frame.kind) opened.length rest with
        | error e => rfl
        | ok read =>
          simp only [bind, Except.bind, Layout.append_assoc]
          rfl
      | opening kind =>
        dsimp only
        split
        · rfl
        split
        · rfl
        dsimp only
        rw [unwind]
        cases parseFrom .lossy source limit (some kind) (opened.length + 1) rest with
        | error e => rfl
        | ok read =>
          obtain ⟨inner, behind⟩ := read
          show _ = unwind limit source opened
            (body ++ .group token.name kind (token.count.getD 1) (.done ++ inner) .done) behind
          rw [unwind_eq_bind]
          cases hmore : parseFrom .lossy source limit (opened.head?.map Frame.kind) opened.length
              behind with
          | error e => simp only [bind, Except.bind, hmore]
          | ok read =>
            simp only [bind, Except.bind, hmore, Layout.append_assoc]
            rfl
      | closing =>
        cases opened with
        | nil => exact (unwind_eq_bind limit source [] body rest).symm
        | cons frame opened =>
          show unwind limit source opened (frame.close (body ++ .done)) rest = _
          rw [Layout.append_done]
      | blank => exact (unwind_eq_bind limit source opened body rest).symm

/-- A reader in front of a text comes to what the text is read as. -/
theorem unwind_start (limit : Nat) (source : List Char) :
    unwind limit source [] .done (encode source) = Layout.parse limit source := by
  have hnil : Inside [] := fun b hb => absurd hb List.not_mem_nil
  have hsame : parseFrom .lossy source limit none 0 (encode source) =
      (Layout.parseFrom limit none 0 source).map fun read => (read.1, encode read.2) :=
    same_append hnil (List.suffix_refl source)
  rw [unwind, hsame, Layout.parse]
  cases Layout.parseFrom limit none 0 source <;> rfl

/-- The loop ends with the layout of the text, or with the error for which there is none. -/
theorem exists_ends (limit : Nat) (source : List Char) :
    ∃ turns last, Turn.Ends (turn limit source) (start source) turns last
        (Layout.parse limit source) ∧ turns ≤ (encode source).length + 1 := by
  obtain ⟨turns, last, result, hends, hle⟩ := Turn.exists_ends (turn limit source)
    (fun s => s.ahead.length) (fun _ _ => length_lt_of_turn) (start source)
  obtain ⟨final, hfinal, hsame⟩ := hends.exists_turn
    (fun s => unwind limit source s.opened s.body s.ahead) fun s next h => by
      rw [unwind_eq, h]
  have hresult : Layout.parse limit source = result := by
    rw [← unwind_start]
    refine hsame.trans ?_
    rw [unwind_eq, hfinal]
  exact ⟨turns, last, hresult ▸ hends, hle⟩

end Reader

/-- The length of a text in bytes. -/
theorem length_encode (source : String) :
    (encode source.toList).length = source.utf8ByteSize := by
  rw [← toUTF8_eq_encode]
  rfl

/-- **A token takes the reader on, and reading comes to an end.**

A scanner may begin at any byte of a text, even inside a character, and as far as one behind its
end, and look for a name or for a code.  It comes to an end, and goes back nowhere, nor further than
one byte behind the end.  What it gives is what is read from the bytes ahead; with a token it has
moved, and if there is none there is none for any scanner that begins where it ended.

So reading a text comes to an end under all limits, with the format or the error that the text is
read as.  On the way no more tokens are read than the text has bytes, nor are more groups opened;
and never are more groups open than the limit allows, also where the text is refused. -/
theorem ends_cases (source : String) :
    let length := source.utf8ByteSize
    let bytes := source.toUTF8.data.toList
    (∀ position, position ≤ length + 1 → ∀ inRecord : Bool, ∃ turns last result,
        Turn.Ends (Scanner.turn source.toList) (.start inRecord position) turns last result ∧
          turns ≤ length + 1 - position + 5 ∧
          position ≤ last.position ∧ last.position ≤ length + 1 ∧
          next? .lossy source.toList inRecord (bytes.drop position) =
            result.map (Option.map fun token => (token, bytes.drop last.position)) ∧
          (∀ token, result = .ok (some token) →
            position < last.position ∧ last.position ≤ length) ∧
          (result = .ok none → ∀ again : Bool,
            Turn.Ends (Scanner.turn source.toList) (.start again last.position) 1
              (.start again last.position) (.ok none))) ∧
      ∀ limits : Limits, ∃ turns last result,
        Turn.Ends (Reader.turn limits.depth.toNat source.toList) (.start source.toList) turns last
            result ∧
          turns ≤ length + 1 ∧ last.tokens ≤ length ∧ last.groups ≤ length ∧
          (∀ s, Turn.Reaches (Reader.turn limits.depth.toNat source.toList)
            (.start source.toList) s → s.opened.length ≤ limits.depth.toNat) ∧
          Format.ofText limits source = result >>= fun layout =>
            if limits.values.toNat < layout.yield then
              .error (.tooManyValues limits.values.toNat)
            else .ok ⟨source, layout⟩ := by
  intro length bytes
  have hbytes : bytes = encode source.toList := toUTF8_eq_encode source
  have hlength : (encode source.toList).length = length := length_encode source
  constructor
  · intro position hposition inRecord
    obtain ⟨turns, last, result, hends, hturns, hnext, hbounded, hstops⟩ :=
      Scanner.exists_ends source.toList inRecord (hlength.symm ▸ hposition)
    rw [hlength] at hturns hstops
    have hle := hlength ▸ hbounded.position_le
    refine ⟨turns, last, result, hends, hturns, hbounded.le, hle, hbytes ▸ hnext, ?_, ?_⟩
    · rintro token rfl
      cases hstops with
      | token _ hcount => exact hlength ▸ hbounded.of_counting hcount
    · rintro rfl again
      cases hstops with
      | nothing hend => exact Scanner.ends_behind (hlength.symm ▸ hend) again
  · intro limits
    obtain ⟨turns, last, hends, hturns⟩ := Reader.exists_ends limits.depth.toNat source.toList
    have hkeeps {s : Reader} (h : Turn.Reaches (Reader.turn limits.depth.toNat source.toList)
        (.start source.toList) s) : s.Accounted limits.depth.toNat source.toList :=
      h.keeps (fun _ => Reader.Accounted.turn) (Reader.accounted_start _ _)
    have hlast := hkeeps hends.reaches
    have htokens := hlast.tokens
    have hgroups := hlast.groups
    exact ⟨turns, last, _, hends, by omega, by omega, by omega, fun s h => (hkeeps h).opened, rfl⟩

/-- A backslash that ends the text takes the search for a name one byte behind the end. -/
theorem ends_cases_backslash :
    1 ≤ "\x7b\\".utf8ByteSize + 1 ∧ ∃ turns,
      Turn.Ends (Scanner.turn "\x7b\\".toList) (.start true 1) turns ⟨.seeking, 3⟩ (.ok none) ∧
        Turn.Ends (Scanner.turn "\x7b\\".toList) (.start true 3) 1 (.start true 3) (.ok none) := by
  have hposition : 1 ≤ "\x7b\\".utf8ByteSize + 1 := by decide +kernel
  obtain ⟨turns, last, result, hends, _, _, _, _, _, hnone⟩ :=
    (ends_cases "\x7b\\").1 1 hposition true
  have hchars : "\x7b\\".toList = ['\x7b', '\\'] := by decide +kernel
  have hrun : Turn.Ends (Scanner.turn "\x7b\\".toList) (.start true 1) 2 ⟨.seeking, 3⟩
      (.ok none) := by
    rw [hchars]
    exact .more rfl (.last rfl)
  obtain ⟨_, rfl, rfl⟩ := hends.unique hrun
  exact ⟨hposition, turns, hends, hnone rfl true⟩

end Bytewise

end BinaryLayout
