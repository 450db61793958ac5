import BinaryLayout.Json.Numeral.Reader
import BinaryLayout.Json.Quoted.Reader

/-!
# Passing over JSON values

A value whose content does not matter is passed over, however deeply it is nested: the reader
remembers the brackets that are open and whether a value comes next or has just ended. Less is
asked of such a value than of one that is read: a number may be as great as it likes.
-/

namespace BinaryLayout.Json

/-- A container that is open. -/
inductive Bracket where
  | list
  | object
deriving DecidableEq, Repr

/-- The character that closes a container. -/
def Bracket.closing : Bracket → Char
  | .list => ']'
  | .object => '}'

/-- Passes over a value that is neither a list nor an object. -/
def skipScalar : List Char → Except Refusal (List Char)
  | [] => .error .incomplete
  | 'n' :: rest => readWord ['u', 'l', 'l'] rest
  | 't' :: rest => readWord ['r', 'u', 'e'] rest
  | 'f' :: rest => readWord ['a', 'l', 's', 'e'] rest
  | '"' :: rest => skipString rest
  | c :: rest =>
    if startsNumber c then
      match readNumeral .malformed (c :: rest) with
      | .error e => .error e
      | .ok (_, rest) => .ok rest
    else .error .malformed

/-- The text behind the colon that must come next. -/
def readColon (text : List Char) : Except Refusal (List Char) :=
  match dropBlank text with
  | [] => .error .incomplete
  | ':' :: rest => .ok rest
  | _ => .error .malformed

/-- Passes over the key and the colon of a member. -/
def skipKey (text : List Char) : Except Refusal (List Char) :=
  match dropBlank text with
  | [] => .error .incomplete
  | '"' :: rest =>
    match skipString rest with
    | .error e => .error e
    | .ok rest => readColon rest
  | _ => .error .malformed

/-- Passes over what stands before a value inside a container: the key of an object's member. -/
def Bracket.skipKey : Bracket → List Char → Except Refusal (List Char)
  | .list, text => .ok text
  | .object, text => Json.skipKey text

/-! ## What is read is gone -/

theorem length_lt_of_skipScalar {text rest : List Char} (h : skipScalar text = .ok rest) :
    rest.length < text.length := by
  unfold skipScalar at h
  split at h
  · simp at h
  · have := length_le_of_readWord h; grind
  · have := length_le_of_readWord h; grind
  · have := length_le_of_readWord h; grind
  · have := length_lt_of_skipString h; grind
  · split at h
    · split at h
      · simp at h
      · next hn =>
        have := length_lt_of_readNumeral hn
        grind
    · simp at h

theorem length_le_of_readColon {text rest : List Char} (h : readColon text = .ok rest) :
    rest.length ≤ text.length := by
  have := length_dropBlank_le text
  unfold readColon at h
  grind

theorem Bracket.length_le_of_skipKey {bracket : Bracket} {text rest : List Char}
    (h : bracket.skipKey text = .ok rest) : rest.length ≤ text.length := by
  cases bracket with
  | list => grind [skipKey]
  | object =>
    have := length_dropBlank_le text
    simp only [skipKey, Json.skipKey] at h
    split at h
    · simp at h
    · split at h
      · simp at h
      · next hs =>
        have := length_lt_of_skipString hs
        have := length_le_of_readColon h
        grind
    · simp at h

/-! ## Nested values -/

/-- Where a reader stands. -/
inductive Place where
  /-- A value comes next. -/
  | before
  /-- A value has just ended. -/
  | behind
deriving DecidableEq, Repr

/-- Passes over a value, if one comes next, and then over the rest of every open container, of
which the innermost is named first. -/
def skip (place : Place) (opened : List Bracket) (text : List Char) :
    Except Refusal (List Char) :=
  match place, opened with
  | .before, opened =>
    match hb : dropBlank text with
    | [] => .error .incomplete
    | c :: rest =>
      have := length_lt_of_dropBlank hb
      if c = '[' ∨ c = '{' then
        let bracket : Bracket := if c = '[' then .list else .object
        match hr : dropBlank rest with
        | [] => .error .incomplete
        | d :: inner =>
          have := length_lt_of_dropBlank hr
          if d = bracket.closing then skip .behind opened inner
          else
            match hk : bracket.skipKey (d :: inner) with
            | .error e => .error e
            | .ok left =>
              have := Bracket.length_le_of_skipKey hk
              skip .before (bracket :: opened) left
      else
        match hs : skipScalar (c :: rest) with
        | .error e => .error e
        | .ok left =>
          have := length_lt_of_skipScalar hs
          skip .behind opened left
  | .behind, [] => .ok text
  | .behind, bracket :: opened =>
    match hb : dropBlank text with
    | [] => .error .incomplete
    | c :: rest =>
      have := length_lt_of_dropBlank hb
      if c = bracket.closing then skip .behind opened rest
      else if c = ',' then
        match hk : bracket.skipKey rest with
        | .error e => .error e
        | .ok left =>
          have := Bracket.length_le_of_skipKey hk
          skip .before (bracket :: opened) left
      else .error .malformed
termination_by text.length
decreasing_by all_goals grind

theorem length_le_of_skip {place : Place} {opened : List Bracket} {text rest : List Char}
    (h : skip place opened text = .ok rest) : rest.length ≤ text.length := by
  fun_induction skip place opened text <;> grind

/-- Passes over one value. -/
def skipValue (text : List Char) : Except Refusal (List Char) := skip .before [] text

theorem length_le_of_skipValue {text rest : List Char} (h : skipValue text = .ok rest) :
    rest.length ≤ text.length := length_le_of_skip h

end BinaryLayout.Json
