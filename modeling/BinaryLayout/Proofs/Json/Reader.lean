import BinaryLayout.Json.Numeral.Reader
import BinaryLayout.Json.Quoted.Reader
import BinaryLayout.Json.Skip

/-!
# A strict reader of JSON

What a JSON text says, apart from how it is written: `PlainData`, in which an object keeps its
members in the order of the text and each of them as often as it stands there.  The reader takes
the grammar at its word: one value, with white space around its parts and nothing else, no comma
without a value behind it, no needless zero, and no raw control character inside quotes.

There are three groups.

* Parts of a value.  `readScalar`, `readNumber` and `readKey` each give what they read and the text
  behind it.
* Nesting.  `stepBefore` and `stepBehind` go on by one part of the text, in front of a value or
  behind one; the containers that are open stand on a stack, each with what has been read of it.
  Each step leaves less text, so `run` comes to an end.
* Runs.  One lemma for each thing that a step can come upon, such as `run_scalar` or `run_comma`.
-/

namespace BinaryLayout

namespace Json

theorem dropBlank_append {blanks : List Char} (h : ∀ c ∈ blanks, isBlank c = true)
    (text : List Char) : dropBlank (blanks ++ text) = dropBlank text :=
  List.dropWhile_append_of_pos h

theorem dropBlank_cons {c : Char} (h : isBlank c = false) (text : List Char) :
    dropBlank (c :: text) = c :: text := by
  rw [dropBlank, List.dropWhile_cons_of_neg (by simp [h])]

end Json

/-- What a JSON text says. -/
inductive PlainData where
  | null
  | boolean (b : Bool)
  /-- A number written with digits only. -/
  | integer (n : Int)
  /-- Any other number, as it is written. -/
  | decimal (token : String)
  | string (s : String)
  | list (items : List PlainData)
  | object (members : List (String × PlainData))

namespace PlainData

open Json

/-! ## Parts of a value -/

/-- The integer that the digits of a numeral stand for. -/
def integerOf (numeral : Numeral) : Int :=
  if numeral.negative then -digitsValue numeral.whole else digitsValue numeral.whole

/-- Reads a number. -/
def readNumber (text : List Char) : Except Refusal (PlainData × List Char) :=
  match readNumeral .incomplete text with
  | .error e => .error e
  | .ok (numeral, rest) =>
    if numeral.plain then .ok (.integer (integerOf numeral), rest)
    else .ok (.decimal (String.ofList (text.take (text.length - rest.length))), rest)

/-- Reads a word that stands for a value. -/
def readName (word : List Char) (value : PlainData) (text : List Char) :
    Except Refusal (PlainData × List Char) :=
  match readWord word text with
  | .error e => .error e
  | .ok rest => .ok (value, rest)

/-- Reads a value that is neither a list nor an object. -/
def readScalar : List Char → Except Refusal (PlainData × List Char)
  | [] => .error .incomplete
  | 'n' :: rest => readName ['u', 'l', 'l'] .null rest
  | 't' :: rest => readName ['r', 'u', 'e'] (.boolean true) rest
  | 'f' :: rest => readName ['a', 'l', 's', 'e'] (.boolean false) rest
  | '"' :: rest =>
    match readString rest with
    | .error e => .error e
    | .ok (s, rest) => .ok (.string (String.ofList s), rest)
  | c :: rest => if startsNumber c then readNumber (c :: rest) else .error .malformed

/-- Reads the key and the colon of a member. -/
def readKey (text : List Char) : Except Refusal (String × List Char) :=
  match dropBlank text with
  | [] => .error .incomplete
  | '"' :: rest =>
    match readString rest with
    | .error e => .error e
    | .ok (key, rest) =>
      match readColon rest with
      | .error e => .error e
      | .ok rest => .ok (String.ofList key, rest)
  | _ => .error .malformed

theorem length_le_of_readName {word text rest : List Char} {value data : PlainData}
    (h : readName word value text = .ok (data, rest)) : rest.length ≤ text.length := by
  unfold readName at h
  split at h
  · simp at h
  · next hw =>
    have := length_le_of_readWord hw
    grind

theorem length_lt_of_readScalar {text rest : List Char} {data : PlainData}
    (h : readScalar text = .ok (data, rest)) : rest.length < text.length := by
  unfold readScalar at h
  split at h
  · simp at h
  · have := length_le_of_readName h; grind
  · have := length_le_of_readName h; grind
  · have := length_le_of_readName h; grind
  · split at h
    · simp at h
    · next hs =>
      have := length_lt_of_readString hs
      grind
  · split at h
    · unfold readNumber at h
      split at h
      · simp at h
      · next hn =>
        have := length_lt_of_readNumeral hn
        grind
    · simp at h

theorem length_lt_of_readKey {text rest : List Char} {key : String}
    (h : readKey text = .ok (key, rest)) : rest.length < text.length := by
  have hblank := length_dropBlank_le text
  unfold readKey at h
  split at h
  · simp at h
  · split at h
    · simp at h
    · next hs =>
      have := length_lt_of_readString hs
      split at h
      · simp at h
      · next hc =>
        have := length_le_of_readColon hc
        grind
  · simp at h

/-! ## Nesting -/

/-- An open container with what has been read of it.  A value comes next. -/
inductive Frame where
  | list (items : List PlainData)
  | object (members : List (String × PlainData)) (key : String)

/-- The character that closes the container. -/
def Frame.closing : Frame → Char
  | .list _ => ']'
  | .object _ _ => '}'

/-- The container, closed behind the value that comes next. -/
def Frame.closed (value : PlainData) : Frame → PlainData
  | .list items => .list (items ++ [value])
  | .object members key => .object (members ++ [(key, value)])

/-- Goes on to the next value of the container, behind the comma. -/
def Frame.next (value : PlainData) (text : List Char) : Frame → Except Refusal (Frame × List Char)
  | .list items => .ok (.list (items ++ [value]), text)
  | .object members key =>
    match readKey text with
    | .error e => .error e
    | .ok (next, rest) => .ok (.object (members ++ [(key, value)]) next, rest)

/-- Where a reader stands. -/
inductive Place where
  /-- A value comes next. -/
  | before
  /-- This value has just ended. -/
  | behind (value : PlainData)

/-- A reader with the text in front of it.  The innermost open container stands first. -/
structure State where
  place : Place
  opened : List Frame
  text : List Char

/-- Reads the beginning of a value, and all of one that is no container or an empty one. -/
def stepBefore (opened : List Frame) (text : List Char) : Except Refusal State :=
  match dropBlank text with
  | '[' :: rest =>
    match dropBlank rest with
    | ']' :: left => .ok ⟨.behind (.list []), opened, left⟩
    | _ => .ok ⟨.before, .list [] :: opened, rest⟩
  | '{' :: rest =>
    match dropBlank rest with
    | '}' :: left => .ok ⟨.behind (.object []), opened, left⟩
    | _ =>
      match readKey rest with
      | .error e => .error e
      | .ok (key, left) => .ok ⟨.before, .object [] key :: opened, left⟩
  | text =>
    match readScalar text with
    | .error e => .error e
    | .ok (value, left) => .ok ⟨.behind value, opened, left⟩

/-- Reads what stands behind a value inside a container: its end, or a comma. -/
def stepBehind (value : PlainData) (frame : Frame) (opened : List Frame) (text : List Char) :
    Except Refusal State :=
  match dropBlank text with
  | [] => .error .incomplete
  | c :: rest =>
    if c = frame.closing then .ok ⟨.behind (frame.closed value), opened, rest⟩
    else if c = ',' then
      match frame.next value rest with
      | .error e => .error e
      | .ok (frame, left) => .ok ⟨.before, frame :: opened, left⟩
    else .error .malformed

theorem length_lt_of_stepBefore {opened : List Frame} {text : List Char} {state : State}
    (h : stepBefore opened text = .ok state) : state.text.length < text.length := by
  have hblank := length_dropBlank_le text
  unfold stepBefore at h
  split at h
  · next rest hb =>
    have := length_dropBlank_le rest
    split at h <;> grind
  · next rest hb =>
    have := length_dropBlank_le rest
    split at h
    · grind
    · split at h
      · simp at h
      · next hk =>
        have := length_lt_of_readKey hk
        grind
  · split at h
    · simp at h
    · next hs =>
      have := length_lt_of_readScalar hs
      grind

theorem Frame.length_le_of_next {value : PlainData} {text rest : List Char} {frame frame' : Frame}
    (h : frame.next value text = .ok (frame', rest)) : rest.length ≤ text.length := by
  cases frame with
  | list items =>
    simp only [Frame.next, Except.ok.injEq, Prod.mk.injEq] at h
    exact Nat.le_of_eq (congrArg List.length h.2.symm)
  | object members key =>
    simp only [Frame.next] at h
    split at h
    · simp at h
    · next hk =>
      have := length_lt_of_readKey hk
      grind

theorem length_lt_of_stepBehind {value : PlainData} {frame : Frame} {opened : List Frame}
    {text : List Char} {state : State} (h : stepBehind value frame opened text = .ok state) :
    state.text.length < text.length := by
  have hblank := length_dropBlank_le text
  unfold stepBehind at h
  split at h
  · simp at h
  · split at h
    · grind
    · split at h
      · split at h
        · simp at h
        · next hn =>
          have := Frame.length_le_of_next hn
          grind
      · simp at h

/-- The value that the text comes to, of which nothing may be left over. -/
def run (state : State) : Except Refusal PlainData :=
  match state with
  | ⟨.before, opened, text⟩ =>
    match h : stepBefore opened text with
    | .error e => .error e
    | .ok next =>
      have := length_lt_of_stepBefore h
      run next
  | ⟨.behind value, frame :: opened, text⟩ =>
    match h : stepBehind value frame opened text with
    | .error e => .error e
    | .ok next =>
      have := length_lt_of_stepBehind h
      run next
  | ⟨.behind value, [], text⟩ => if dropBlank text = [] then .ok value else .error .malformed
termination_by state.text.length

/-- The value that a text says. -/
def read (text : String) : Except Refusal PlainData := run ⟨.before, [], text.toList⟩

/-! ## Runs -/

theorem run_before (opened : List Frame) (text : List Char) :
    run ⟨.before, opened, text⟩ = (stepBefore opened text).bind run := by
  rw [run]
  split
  · next he =>
    rw [he]
    rfl
  · next hn =>
    show run _ = _
    rw [hn]
    rfl

theorem run_behind (value : PlainData) (frame : Frame) (opened : List Frame) (text : List Char) :
    run ⟨.behind value, frame :: opened, text⟩ = (stepBehind value frame opened text).bind run := by
  rw [run]
  split
  · next he =>
    rw [he]
    rfl
  · next hn =>
    show run _ = _
    rw [hn]
    rfl

/-- White space in front of a value is passed over. -/
theorem run_before_blanks {blanks : List Char} (h : ∀ c ∈ blanks, isBlank c = true)
    (opened : List Frame) (text : List Char) :
    run ⟨.before, opened, blanks ++ text⟩ = run ⟨.before, opened, text⟩ := by
  rw [run_before, run_before, stepBefore, stepBefore, dropBlank_append h]

/-- A value that is neither a list nor an object. -/
theorem run_scalar {opened : List Frame} {c : Char} {text rest : List Char} {value : PlainData}
    (hblank : isBlank c = false) (hlist : c ≠ '[') (hobject : c ≠ '{')
    (h : readScalar (c :: text) = .ok (value, rest)) :
    run ⟨.before, opened, c :: text⟩ = run ⟨.behind value, opened, rest⟩ := by
  rw [run_before, stepBefore, dropBlank_cons hblank]
  split
  · next heq => exact absurd (List.cons.inj heq).1 hlist
  · next heq => exact absurd (List.cons.inj heq).1 hobject
  · rw [h]
    rfl

/-- A list with a first item. -/
theorem run_list {opened : List Frame} {c : Char} {text left : List Char}
    (h : dropBlank text = c :: left) (hc : c ≠ ']') :
    run ⟨.before, opened, '[' :: text⟩ = run ⟨.before, .list [] :: opened, text⟩ := by
  rw [run_before, stepBefore, dropBlank_cons rfl]
  split
  · next heq =>
    rw [← (List.cons.inj heq).2, h]
    split
    · next heq => exact absurd (List.cons.inj heq).1 hc
    · rfl
  · next heq => exact absurd (List.cons.inj heq).1 (by decide)
  · next hlist _ => exact absurd rfl (hlist text)

/-- An object with the key of a first member. -/
theorem run_object {opened : List Frame} {text left : List Char} {key : String}
    (h : readKey text = .ok (key, left)) :
    run ⟨.before, opened, '{' :: text⟩ = run ⟨.before, .object [] key :: opened, left⟩ := by
  have hkey : ∀ rest, dropBlank text ≠ '}' :: rest := by
    intro rest heq
    rw [readKey, heq] at h
    cases h
  rw [run_before, stepBefore, dropBlank_cons rfl]
  split
  · next heq => exact absurd (List.cons.inj heq).1 (by decide)
  · next heq =>
    rw [← (List.cons.inj heq).2, h]
    split
    · next heq => exact absurd heq (hkey _)
    · rfl
  · next hobject => exact absurd rfl (hobject text)

/-- The end of a container. -/
theorem run_closing {value : PlainData} {frame : Frame} {opened : List Frame}
    {text rest : List Char} (h : dropBlank text = frame.closing :: rest) :
    run ⟨.behind value, frame :: opened, text⟩ =
      run ⟨.behind (frame.closed value), opened, rest⟩ := by
  rw [run_behind, stepBehind, h]
  dsimp only
  rw [if_pos rfl]
  rfl

/-- A comma, and what has to stand between it and the next value. -/
theorem run_comma {value : PlainData} {frame next : Frame} {opened : List Frame}
    {text rest : List Char} (h : frame.next value text = .ok (next, rest)) :
    run ⟨.behind value, frame :: opened, ',' :: text⟩ = run ⟨.before, next :: opened, rest⟩ := by
  have hclosing : ',' ≠ frame.closing := by cases frame <;> simp [Frame.closing]
  rw [run_behind, stepBehind, dropBlank_cons rfl]
  dsimp only
  rw [if_neg hclosing, if_pos rfl, h]
  rfl

end PlainData

end BinaryLayout
