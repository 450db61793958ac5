import BinaryLayout.Proofs.Bytewise.Reader
import BinaryLayout.Proofs.Turns

/-!
# Looking for a token turn by turn

A reader of bytes that keeps its position and decides at every byte what to do next.  It goes on by
one byte, by two behind a backslash, even where the text ends between them, or not at all when it
starts to do something else.  So that it comes to an end is not in the way it is written.

There are three groups.

* The loop.  `Scanner.turn` is one turn, and every turn that goes on leaves less to do
  (`size_lt_of_turn`).
* The position.  `Scanner.Bounded` holds at every place: the position never goes back, stays within
  the text or one behind it, and has moved when a code has been read.
* The token.  `Scanner.found` is what `Bytewise.next?` makes of the bytes ahead.  No turn changes it
  (`found_eq_of_turn`), so the loop ends with the token that is read there.
-/

namespace BinaryLayout.Bytewise

open Utf8 (encode)

/-! ## The loop -/

/-- What a scanner is doing. -/
inductive Stage where
  /-- A name is looked for. -/
  | seeking
  /-- A name is read that began at `start`. -/
  | naming (start : Nat) (name : List UInt8)
  /-- White space behind a name is passed over. -/
  | spacing (name : String)
  /-- A code comes next. -/
  | coding (name : Option String)
  /-- The count of a code is read. -/
  | counting (name : Option String) (code : Code) (count : Option Nat)
deriving DecidableEq

/-- A scanner in the middle of a token. -/
structure Scanner where
  stage : Stage
  /-- The number of bytes in front of the scanner. -/
  position : Nat
deriving DecidableEq

namespace Scanner

/-- A scanner in front of a token. -/
def start (inRecord : Bool) (position : Nat) : Scanner :=
  ⟨if inRecord then .seeking else .coding none, position⟩

/-- A count with one more digit. -/
def moreCount (count : Option Nat) (d : Char) : Option Nat :=
  some (Count.add (Count.mul (count.getD 0) 10) (d.toNat - '0'.toNat))

/-- One turn of the loop that reads a token of `source`. -/
def turn (source : List Char) (s : Scanner) :
    Scanner × Option (Except FormatError (Option Token)) :=
  let bytes := encode source
  let next (stage : Stage) (step : Nat) : Scanner × Option (Except FormatError (Option Token)) :=
    (⟨stage, s.position + step⟩, none)
  match s.stage with
  | .seeking =>
    match bytes[s.position]? with
    | none => (s, some (.ok none))
    | some b =>
      if asChar b = '}' then next (.spacing "") 0
      else if FieldName.isStart (asChar b) then next (.naming s.position []) 0
      else if asChar b = '\\' then next .seeking 2
      else next .seeking 1
  | .naming start name =>
    let refused := FormatError.unterminatedName
      (FormatError.preview ((textFrom? source start).getD []))
    match bytes[s.position]? with
    | none => (s, some (.error refused))
    | some b =>
      if asChar b = ':' then next (.spacing (String.ofList (Utf8.decode name))) 1
      else if asChar b = '}' then (s, some (.error refused))
      else if asChar b = '\\' then
        let more := bytes[s.position + 1]?.elim [b] unescape
        next (.naming start (name ++ more)) 2
      else next (.naming start (name ++ [b])) 1
  | .spacing name =>
    match bytes[s.position]? with
    | none => next (.coding (some name)) 0
    | some b =>
      if Text.isAsciiBlank (asChar b) then next (.spacing name) 1 else next (.coding (some name)) 0
  | .coding name =>
    match bytes[s.position]? with
    | none => (s, some (.ok none))
    | some b =>
      match bytes[s.position + 1]?.bind fun d => Code.ofPair? (asChar b) (asChar d) with
      | some code => next (.counting name code none) 2
      | none => next (.counting name (.ofChar (asChar b)) none) 1
  | .counting name code count =>
    let token : Except FormatError (Option Token) := .ok (some ⟨name, code, count⟩)
    match bytes[s.position]? with
    | none => (s, some token)
    | some b =>
      if (asChar b).isDigit then next (.counting name code (moreCount count (asChar b))) 1
      else (s, some token)

end Scanner

/-- How many other things a scanner may start to do before a token has been read. -/
def Stage.rank : Stage → Nat
  | .seeking => 4
  | .naming _ _ => 3
  | .spacing _ => 2
  | .coding _ => 1
  | .counting _ _ _ => 0

namespace Scanner

/-- What a turn that goes on does: it starts something else where it is, or passes over bytes. -/
inductive Moves (length : Nat) (s next : Scanner) : Prop
  | starts (hsame : next.position = s.position) (hcode : 0 < next.stage.rank)
      (hrank : next.stage.rank < s.stage.rank)
  | passes (hlt : s.position < length) (hmore : s.position < next.position)
      (hle : next.position ≤ length + 1) (hcount : next.stage.rank = 0 → next.position ≤ length)
      (hrank : next.stage.rank ≤ s.stage.rank)

/-- What a turn finds that ends the loop: a token only behind a code, and nothing at all only behind
the last byte. -/
inductive Stops (length : Nat) (s : Scanner) : Except FormatError (Option Token) → Prop
  | token (token : Token) (hcount : s.stage.rank = 0) : Stops length s (.ok (some token))
  | nothing (hend : length ≤ s.position) : Stops length s (.ok none)
  | refused (e : FormatError) : Stops length s (.error e)

variable {source : List Char} {s next last : Scanner}

theorem lt_of_getElem? {bytes : List UInt8} {i : Nat} {b : UInt8} (h : bytes[i]? = some b) :
    i < bytes.length := (List.getElem?_eq_some_iff.1 h).1

/-- A scanner in front of a byte may pass over it, and over the one behind it unless that would be
taken for a part of the code. -/
theorem moves_of_getElem? {b : UInt8} {stage : Stage} {step : Nat}
    (hb : (encode source)[s.position]? = some b) (hstep : step = 1 ∨ step = 2 ∧ 0 < stage.rank)
    (hrank : stage.rank ≤ s.stage.rank) :
    Moves (encode source).length s ⟨stage, s.position + step⟩ := by
  have hlt := lt_of_getElem? hb
  refine .passes hlt ?_ ?_ ?_ hrank
  · show s.position < s.position + step
    omega
  · show s.position + step ≤ _
    omega
  · intro hcount
    show s.position + step ≤ _
    have hrank : stage.rank = 0 := hcount
    omega

/-! ## The token -/

/-- What is made of a name, and of what follows its colon. -/
def named (source : List Char) (start : Nat) :
    Option (List UInt8 × List UInt8) → Except FormatError (Option (Token × List UInt8))
  | none => .error (.unterminatedName (FormatError.preview ((textFrom? source start).getD [])))
  | some (name, rest) =>
    .ok (readToken? (some (String.ofList (Utf8.decode name)))
      (rest.dropWhile fun b => Text.isAsciiBlank (asChar b)))

/-- The token that comes of what a scanner has and the bytes ahead. -/
def found (source : List Char) (s : Scanner) : Except FormatError (Option (Token × List UInt8)) :=
  let ahead := (encode source).drop s.position
  match s.stage with
  | .seeking => next? .lossy source true ahead
  | .naming start name =>
    named source start ((readName? ahead).map fun (more, rest) => (name ++ more, rest))
  | .spacing name =>
    .ok (readToken? (some name) (ahead.dropWhile fun b => Text.isAsciiBlank (asChar b)))
  | .coding name => .ok (readToken? name ahead)
  | .counting name code count =>
    let digits := (ahead.takeWhile fun b => (asChar b).isDigit).map asChar
    .ok (some (⟨name, code, digits.foldl moreCount count⟩,
      ahead.dropWhile fun b => (asChar b).isDigit))

theorem found_start (source : List Char) (inRecord : Bool) (position : Nat) :
    found source (start inRecord position) =
      next? .lossy source inRecord ((encode source).drop position) := by
  cases inRecord <;> rfl

theorem drop_of_getElem? {bytes : List UInt8} {i : Nat} {b : UInt8} (h : bytes[i]? = some b) :
    bytes.drop i = b :: bytes.drop (i + 1) := by
  obtain ⟨hlt, rfl⟩ := List.getElem?_eq_some_iff.1 h
  exact List.drop_eq_getElem_cons hlt

theorem drop_of_getElem?_none {bytes : List UInt8} {i : Nat} (h : bytes[i]? = none) :
    bytes.drop i = [] := List.drop_eq_nil_of_le (List.getElem?_eq_none_iff.1 h)

theorem drop_succ_of_getElem?_none {bytes : List UInt8} {i : Nat} (h : bytes[i]? = none) :
    bytes.drop (i + 1) = [] :=
  List.drop_eq_nil_of_le (Nat.le_succ_of_le (List.getElem?_eq_none_iff.1 h))

/-- Digits in turn are a count, if there are any. -/
theorem foldl_moreCount (digits : List Char) :
    digits.foldl moreCount none =
      if digits.isEmpty then none else some (Count.ofDigits digits) := by
  have hsome (digits : List Char) (n : Nat) : digits.foldl moreCount (some n) =
      some (digits.foldl (fun n d => Count.add (Count.mul n 10) (d.toNat - '0'.toNat)) n) := by
    induction digits generalizing n with
    | nil => rfl
    | cons d digits ih => exact ih _
  cases digits with
  | nil => rfl
  | cons d digits => exact hsome digits _

/-- What comes before a name does not matter. -/
theorem next?_of_seek_eq {bytes more : List UInt8} (h : seek bytes = seek more) :
    next? .lossy source true bytes = next? .lossy source true more := by
  rw [next?, next?, if_pos rfl, if_pos rfl, nextName?, nextName?, h]

/-- Nothing is found behind the last byte. -/
theorem found_end {position : Nat} (h : (encode source)[position]? = none) (inRecord : Bool) :
    found source (start inRecord position) = .ok none := by
  rw [found_start, drop_of_getElem?_none h]
  cases inRecord <;> rfl

/-- A name goes on behind what has been read of it. -/
theorem found_naming (start : Nat) (name more : List UInt8) {position after : Nat}
    (h : readName? ((encode source).drop position) =
      (readName? ((encode source).drop after)).map fun (name, rest) => (more ++ name, rest)) :
    found source ⟨.naming start name, position⟩ =
      found source ⟨.naming start (name ++ more), after⟩ := by
  simp only [found, h, Option.map_map]
  congr 2
  funext read
  simp

/-- Behind a code its count is read. -/
theorem found_counting_none (name : Option String) (code : Code) (position : Nat) :
    found source ⟨.counting name code none, position⟩ =
      .ok (some (⟨name, code, (readCount ((encode source).drop position)).1⟩,
        (readCount ((encode source).drop position)).2)) := by
  rw [found]
  dsimp only
  rw [foldl_moreCount, readCount]

section

variable {position : Nat} {b : UInt8} (hb : (encode source)[position]? = some b)

include hb

theorem found_brace (h : asChar b = '}') :
    found source ⟨.seeking, position⟩ = found source ⟨.spacing "", position⟩ := by
  have hseek (rest : List UInt8) : seek (b :: rest) = b :: rest := by
    rw [seek.eq_def]
    simp [h]
  have hblank : Text.isAsciiBlank (asChar b) = false := by
    rw [h]
    decide
  rw [found, found, drop_of_getElem? hb]
  dsimp only
  rw [List.dropWhile_cons_of_neg (by simp [hblank]), next?, if_pos rfl, nextName?, hseek]
  dsimp only
  rw [if_pos h]

theorem found_isStart (hbrace : asChar b ≠ '}') (h : FieldName.isStart (asChar b) = true) :
    found source ⟨.seeking, position⟩ = found source ⟨.naming position [], position⟩ := by
  have hseek (rest : List UInt8) : seek (b :: rest) = b :: rest := by
    rw [seek.eq_def]
    simp [h]
  have hpreview : preview .lossy source (b :: (encode source).drop (position + 1)) =
      FormatError.preview ((textFrom? source position).getD []) := by
    have hlt := lt_of_getElem? hb
    have hposition :
        (encode source).length - ((encode source).drop position).length = position := by
      rw [List.length_drop]
      omega
    rw [← drop_of_getElem? hb, preview, hposition]
    rfl
  rw [found, found, drop_of_getElem? hb]
  dsimp only
  rw [next?, if_pos rfl, nextName?, hseek]
  dsimp only
  rw [if_neg hbrace, hpreview]
  cases readName? (b :: (encode source).drop (position + 1)) with
  | none => rfl
  | some read => rfl

theorem found_seeking_backslash (h : asChar b = '\\') :
    found source ⟨.seeking, position⟩ = found source ⟨.seeking, position + 2⟩ := by
  refine next?_of_seek_eq ?_
  rw [drop_of_getElem? hb, seek.eq_def]
  dsimp only
  rw [if_neg (by rw [h]; decide), if_pos h]
  cases hd : (encode source)[position + 1]? with
  | none => rw [drop_of_getElem?_none hd, drop_succ_of_getElem?_none hd, seek]
  | some d => rw [drop_of_getElem? hd]

theorem found_seeking_byte (hbrace : asChar b ≠ '}') (hstart : FieldName.isStart (asChar b) = false)
    (hslash : asChar b ≠ '\\') :
    found source ⟨.seeking, position⟩ = found source ⟨.seeking, position + 1⟩ := by
  refine next?_of_seek_eq ?_
  rw [drop_of_getElem? hb, seek.eq_def]
  dsimp only
  rw [if_neg (by simp [hstart, hbrace]), if_neg hslash]

theorem found_naming_colon (start : Nat) (name : List UInt8) (h : asChar b = ':') :
    found source ⟨.naming start name, position⟩ =
      found source ⟨.spacing (String.ofList (Utf8.decode name)), position + 1⟩ := by
  have hread (rest : List UInt8) : readName? (b :: rest) = some ([], rest) := by
    rw [readName?.eq_def]
    simp [h]
  rw [found, found, drop_of_getElem? hb]
  dsimp only
  rw [hread, Option.map_some, List.append_nil]
  rfl

theorem found_naming_brace (start : Nat) (name : List UInt8) (h : asChar b = '}') :
    found source ⟨.naming start name, position⟩ = .error (.unterminatedName
      (FormatError.preview ((textFrom? source start).getD []))) := by
  have hread (rest : List UInt8) : readName? (b :: rest) = none := by
    rw [readName?.eq_def]
    simp [h]
  rw [found, drop_of_getElem? hb]
  dsimp only
  rw [hread]
  rfl

theorem found_naming_backslash (start : Nat) (name : List UInt8) (h : asChar b = '\\') :
    found source ⟨.naming start name, position⟩ =
      found source ⟨.naming start (name ++ (encode source)[position + 1]?.elim [b] unescape),
        position + 2⟩ := by
  refine found_naming start name _ ?_
  rw [drop_of_getElem? hb, readName?.eq_def]
  dsimp only
  rw [if_neg (by rw [h]; decide), if_neg (by rw [h]; decide), if_pos h]
  cases hd : (encode source)[position + 1]? with
  | none => rw [drop_of_getElem?_none hd, drop_succ_of_getElem?_none hd, readName?]; rfl
  | some d => rw [drop_of_getElem? hd]; rfl

theorem found_naming_byte (start : Nat) (name : List UInt8) (hcolon : asChar b ≠ ':')
    (hbrace : asChar b ≠ '}') (hslash : asChar b ≠ '\\') :
    found source ⟨.naming start name, position⟩ =
      found source ⟨.naming start (name ++ [b]), position + 1⟩ := by
  refine found_naming start name _ ?_
  rw [drop_of_getElem? hb, readName?.eq_def]
  dsimp only
  rw [if_neg hcolon, if_neg hbrace, if_neg hslash]
  rfl

theorem found_spacing (name : String) :
    found source ⟨.spacing name, position⟩ =
      if Text.isAsciiBlank (asChar b) then found source ⟨.spacing name, position + 1⟩
      else found source ⟨.coding (some name), position⟩ := by
  rw [found, found, found]
  dsimp only
  rw [drop_of_getElem? hb, List.dropWhile_cons]
  split <;> rfl

theorem found_coding (name : Option String) :
    found source ⟨.coding name, position⟩ =
      match (encode source)[position + 1]?.bind fun d => Code.ofPair? (asChar b) (asChar d) with
      | some code => found source ⟨.counting name code none, position + 2⟩
      | none => found source ⟨.counting name (.ofChar (asChar b)) none, position + 1⟩ := by
  simp only [found_counting_none]
  rw [found, drop_of_getElem? hb]
  dsimp only
  cases hd : (encode source)[position + 1]? with
  | none =>
    rw [drop_of_getElem?_none hd]
    rfl
  | some d =>
    rw [drop_of_getElem? hd, readToken?, code?, Option.bind_some]
    cases Code.ofPair? (asChar b) (asChar d) <;> rfl

theorem found_counting (name : Option String) (code : Code) (count : Option Nat) :
    found source ⟨.counting name code count, position⟩ =
      if (asChar b).isDigit then
        found source ⟨.counting name code (moreCount count (asChar b)), position + 1⟩
      else .ok (some (⟨name, code, count⟩, (encode source).drop position)) := by
  rw [found, found]
  dsimp only
  rw [drop_of_getElem? hb, List.takeWhile_cons, List.dropWhile_cons]
  split <;> rfl

end

/-! ## Turns -/

/-- A turn that goes on changes nothing about the token. -/
theorem goes_of_turn (h : turn source s = (next, none)) :
    Moves (encode source).length s next ∧ found source s = found source next := by
  obtain ⟨stage, position⟩ := s
  cases stage with
  | seeking =>
    rw [turn] at h
    dsimp only at h
    split at h
    · cases h
    next b hb =>
    split at h
    · next hbrace =>
      cases h
      exact ⟨.starts rfl (show 0 < 2 by decide) (show 2 < 4 by decide), found_brace hb hbrace⟩
    next hbrace =>
    split at h
    · next hstart =>
      cases h
      exact ⟨.starts rfl (show 0 < 3 by decide) (show 3 < 4 by decide),
        found_isStart hb hbrace hstart⟩
    next hstart =>
    split at h
    · next hslash =>
      cases h
      exact ⟨moves_of_getElem? hb (.inr ⟨rfl, show 0 < 4 by decide⟩) (Nat.le_refl _),
        found_seeking_backslash hb hslash⟩
    · next hslash =>
      cases h
      exact ⟨moves_of_getElem? hb (.inl rfl) (Nat.le_refl _),
        found_seeking_byte hb hbrace (Bool.eq_false_iff.2 hstart) hslash⟩
  | naming start name =>
    rw [turn] at h
    dsimp only at h
    split at h
    · cases h
    next b hb =>
    split at h
    · next hcolon =>
      cases h
      exact ⟨moves_of_getElem? hb (.inl rfl) (show 2 ≤ 3 by decide),
        found_naming_colon hb start name hcolon⟩
    next hcolon =>
    split at h
    · cases h
    next hbrace =>
    split at h
    · next hslash =>
      cases h
      exact ⟨moves_of_getElem? hb (.inr ⟨rfl, show 0 < 3 by decide⟩) (Nat.le_refl _),
        found_naming_backslash hb start name hslash⟩
    · next hslash =>
      cases h
      exact ⟨moves_of_getElem? hb (.inl rfl) (Nat.le_refl _),
        found_naming_byte hb start name hcolon hbrace hslash⟩
  | spacing name =>
    rw [turn] at h
    dsimp only at h
    split at h
    · next hb =>
      cases h
      refine ⟨.starts rfl (show 0 < 1 by decide) (show 1 < 2 by decide), ?_⟩
      rw [found, found, Nat.add_zero, drop_of_getElem?_none hb]
      rfl
    next b hb =>
    rw [found_spacing hb]
    split at h
    · next hblank =>
      cases h
      exact ⟨moves_of_getElem? hb (.inl rfl) (Nat.le_refl _), if_pos hblank⟩
    · next hblank =>
      cases h
      exact ⟨.starts rfl (show 0 < 1 by decide) (show 1 < 2 by decide), if_neg hblank⟩
  | coding name =>
    rw [turn] at h
    dsimp only at h
    split at h
    · cases h
    next b hb =>
    rw [found_coding hb]
    split at h
    · next code hcode =>
      -- The byte behind the code is there, as it belongs to the code.
      obtain ⟨d, hd, _⟩ := Option.bind_eq_some_iff.1 hcode
      have hlt := lt_of_getElem? hd
      cases h
      refine ⟨.passes (lt_of_getElem? hb) ?_ ?_ (fun _ => hlt) (show 0 ≤ 1 by decide), rfl⟩
      · show position < position + 2
        omega
      · show position + 2 ≤ _
        omega
    · cases h
      exact ⟨moves_of_getElem? hb (.inl rfl) (show 0 ≤ 1 by decide), rfl⟩
  | counting name code count =>
    rw [turn] at h
    dsimp only at h
    split at h
    · cases h
    next b hb =>
    rw [found_counting hb]
    split at h
    · next hdigit =>
      cases h
      exact ⟨moves_of_getElem? hb (.inl rfl) (Nat.le_refl _), if_pos hdigit⟩
    · cases h

/-- The turn that ends the loop gives the token. -/
theorem stops_of_turn {result : Except FormatError (Option Token)}
    (h : turn source s = (last, some result)) :
    last = s ∧ Stops (encode source).length s result ∧ found source s =
      result.map (Option.map fun token => (token, (encode source).drop s.position)) := by
  obtain ⟨stage, position⟩ := s
  cases stage with
  | seeking =>
    rw [turn] at h
    dsimp only at h
    split at h
    · next hb =>
      cases h
      exact ⟨rfl, .nothing (List.getElem?_eq_none_iff.1 hb), found_end hb true⟩
    · split at h
      · cases h
      split at h
      · cases h
      split at h <;> cases h
  | naming start name =>
    rw [turn] at h
    dsimp only at h
    split at h
    · next hb =>
      cases h
      refine ⟨rfl, .refused _, ?_⟩
      rw [found, drop_of_getElem?_none hb]
      rfl
    · next b hb =>
      split at h
      · cases h
      split at h
      · next hbrace =>
        cases h
        exact ⟨rfl, .refused _, found_naming_brace hb start name hbrace⟩
      split at h <;> cases h
  | spacing name =>
    rw [turn] at h
    dsimp only at h
    split at h
    · cases h
    · split at h <;> cases h
  | coding name =>
    rw [turn] at h
    dsimp only at h
    split at h
    · next hb =>
      cases h
      refine ⟨rfl, .nothing (List.getElem?_eq_none_iff.1 hb), ?_⟩
      rw [found, drop_of_getElem?_none hb]
      rfl
    · split at h <;> cases h
  | counting name code count =>
    rw [turn] at h
    dsimp only at h
    split at h
    · next hb =>
      cases h
      refine ⟨rfl, .token _ rfl, ?_⟩
      rw [found, drop_of_getElem?_none hb]
      rfl
    · next b hb =>
      split at h
      · cases h
      · next hdigit =>
        cases h
        refine ⟨rfl, .token _ rfl, ?_⟩
        rw [found_counting hb, if_neg hdigit]
        rfl

/-! ## Progress -/

/-- What is left to do: bytes to come, and things to start. -/
def size (source : List Char) (s : Scanner) : Nat :=
  (encode source).length + 1 - s.position + s.stage.rank

/-- Every turn that goes on leaves less to do. -/
theorem size_lt_of_turn (h : turn source s = (next, none)) : next.size source < s.size source := by
  rw [size, size]
  cases (goes_of_turn h).1 with
  | starts hsame _ hrank => omega
  | passes hlt hmore _ _ hrank => omega

/-- Where a scanner may be that began at `first`. -/
structure Bounded (source : List Char) (first : Nat) (s : Scanner) : Prop where
  le : first ≤ s.position
  position_le : s.position ≤ (encode source).length + 1
  of_counting : s.stage.rank = 0 → first < s.position ∧ s.position ≤ (encode source).length

theorem bounded_start {first : Nat} (h : first ≤ (encode source).length + 1) (inRecord : Bool) :
    Bounded source first (start inRecord first) := by
  refine ⟨Nat.le_refl _, h, fun hcount => ?_⟩
  cases inRecord <;> cases hcount

theorem Bounded.turn {first : Nat} (h : Bounded source first s) :
    Bounded source first (Scanner.turn source s).1 := by
  rcases hturn : Scanner.turn source s with ⟨next, _ | found⟩
  · cases (goes_of_turn hturn).1 with
    | starts hsame hcode _ =>
      show Bounded source first next
      have hle := h.le
      have hposition := h.position_le
      exact ⟨by omega, by omega, fun hcount => by omega⟩
    | passes hlt hmore hle hcount _ =>
      show Bounded source first next
      have hfirst := h.le
      exact ⟨by omega, hle, fun h => ⟨by omega, hcount h⟩⟩
  · exact (stops_of_turn hturn).1 ▸ h

/-- Behind the last byte there is nothing for any scanner. -/
theorem ends_behind {position : Nat} (h : (encode source).length ≤ position) (inRecord : Bool) :
    Turn.Ends (turn source) (start inRecord position) 1 (start inRecord position) (.ok none) := by
  have hb : (encode source)[position]? = none := List.getElem?_eq_none h
  refine .last ?_
  cases inRecord with
  | true => simp only [turn, start, if_true, hb]
  | false => simp only [turn, start, Bool.false_eq_true, if_false, hb]

/-- In front of every place the loop ends, with the token that is read there, after not many more
turns than there are bytes ahead. -/
theorem exists_ends (source : List Char) (inRecord : Bool) {position : Nat}
    (h : position ≤ (encode source).length + 1) :
    ∃ turns last result, Turn.Ends (turn source) (start inRecord position) turns last result ∧
      turns ≤ (encode source).length + 1 - position + 5 ∧
        next? .lossy source inRecord ((encode source).drop position) =
          result.map (Option.map fun token => (token, (encode source).drop last.position)) ∧
          Bounded source position last ∧ Stops (encode source).length last result := by
  obtain ⟨turns, last, result, hends, hle⟩ :=
    Turn.exists_ends (turn source) (size source) (fun _ _ => size_lt_of_turn)
      (start inRecord position)
  obtain ⟨final, hfinal, hsame⟩ := hends.exists_turn (found source) fun _ _ h => (goes_of_turn h).2
  obtain ⟨rfl, hstops, hfound⟩ := stops_of_turn hfinal
  refine ⟨turns, _, result, hends, ?_, ?_, ?_, hstops⟩
  · have hrank : (start inRecord position).stage.rank ≤ 4 := by
      cases inRecord with
      | true => exact Nat.le_refl 4
      | false => exact show 1 ≤ 4 by decide
    have hposition : (start inRecord position).position = position := rfl
    rw [size] at hle
    omega
  · rw [← found_start, hsame, hfound]
  · exact hends.reaches.keeps (fun _ => Bounded.turn) (bounded_start h inRecord)

end Scanner

end BinaryLayout.Bytewise
