import BinaryLayout.Json.Printer
import BinaryLayout.Json.Skip
import BinaryLayout.Limits

/-!
# Limits in JSON

Limits are written as an object with both members (`Limits.toJson`). They are read from an object
or from a list (`Limits.ofJson`): in an object the two members may stand anywhere among others,
once each at most, and in a list the depth comes first. A limit that is missing is the default.
-/

namespace BinaryLayout

namespace Limits

/-- The name of the depth limit. -/
def depthKey : String := "max_depth"

/-- The name of the value limit. -/
def valuesKey : String := "max_values"

/-- The limits as a JSON object. -/
def toJson (limits : Limits) : Json :=
  .object (.entry depthKey (.ofNat limits.depth.toNat)
    (.entry valuesKey (.ofNat limits.values.toNat) .empty))

end Limits

namespace Json

/-- The refusal of a value that has been read but does not belong here. -/
def unwanted {α : Type} : Except Refusal α → Refusal
  | .ok _ => .mismatch
  | .error e => e

/-- How a value is refused that does not belong here. Only its first part counts. -/
def refuse : List Char → Refusal
  | [] => .incomplete
  | 'n' :: rest => unwanted (readWord ['u', 'l', 'l'] rest)
  | 't' :: rest => unwanted (readWord ['r', 'u', 'e'] rest)
  | 'f' :: rest => unwanted (readWord ['a', 'l', 's', 'e'] rest)
  | '"' :: rest => unwanted (readString rest)
  | '[' :: _ => .mismatch
  | '{' :: _ => .mismatch
  | c :: rest => if startsNumber c then unwanted (readNumber (c :: rest)) else .malformed

/-- Reads a number written with plain digits that a word of 64 bits can hold. -/
def readCount (text : List Char) : Except Refusal (UInt64 × List Char) :=
  match dropBlank text with
  | [] => .error .incomplete
  | c :: rest =>
    if startsNumber c then
      match readNumber (c :: rest) with
      | .error e => .error e
      | .ok (numeral, left) =>
        match numeral.word? with
        | some n => .ok (n, left)
        | none => .error .mismatch
    else .error (refuse (c :: rest))

theorem length_lt_of_readCount {n : UInt64} {text rest : List Char}
    (h : readCount text = .ok (n, rest)) : rest.length < text.length := by
  have := length_dropBlank_le text
  unfold readCount at h
  split at h
  · simp at h
  · split at h
    · split at h
      · simp at h
      · next hn =>
        have := length_lt_of_readNumber hn
        grind
    · simp at h

end Json

namespace Limits

open Json (Refusal dropBlank readColon readCount readString skipValue)

/-- The limits that have been found so far. -/
structure Found where
  depth : Option UInt64 := none
  values : Option UInt64 := none
deriving DecidableEq, Repr

/-- The limits that were found, and the defaults of the others. -/
def Found.limits (found : Found) : Limits :=
  let standard : Limits := {}
  ⟨found.depth.getD standard.depth, found.values.getD standard.values⟩

/-- Reads the colon and the value of a limit that has not been found before. -/
def Found.readOnce (before : Option UInt64) (text : List Char) :
    Except Refusal (UInt64 × List Char) :=
  if before.isSome then .error .mismatch
  else
    match readColon text with
    | .error e => .error e
    | .ok rest => readCount rest

/-- Reads what follows the key of a member. -/
def Found.readMember (found : Found) (key : List Char) (text : List Char) :
    Except Refusal (Found × List Char) :=
  if key = depthKey.toList then
    match readOnce found.depth text with
    | .error e => .error e
    | .ok (n, rest) => .ok ({ found with depth := some n }, rest)
  else if key = valuesKey.toList then
    match readOnce found.values text with
    | .error e => .error e
    | .ok (n, rest) => .ok ({ found with values := some n }, rest)
  else
    match readColon text with
    | .error e => .error e
    | .ok rest =>
      match skipValue rest with
      | .error e => .error e
      | .ok rest => .ok (found, rest)

theorem Found.length_le_of_readOnce {before : Option UInt64} {n : UInt64} {text rest : List Char}
    (h : readOnce before text = .ok (n, rest)) : rest.length ≤ text.length := by
  unfold readOnce at h
  split at h
  · simp at h
  · split at h
    · simp at h
    · next hc =>
      have := Json.length_le_of_readColon hc
      have := Json.length_lt_of_readCount h
      omega

theorem Found.length_le_of_readMember {found next : Found} {key text rest : List Char}
    (h : found.readMember key text = .ok (next, rest)) : rest.length ≤ text.length := by
  unfold readMember at h
  split at h
  · split at h
    · simp at h
    · next hr =>
      have := length_le_of_readOnce hr
      grind
  · split at h
    · split at h
      · simp at h
      · next hr =>
        have := length_le_of_readOnce hr
        grind
    · split at h
      · simp at h
      · next hc =>
        have := Json.length_le_of_readColon hc
        split at h
        · simp at h
        · next hs =>
          have := Json.length_le_of_skipValue hs
          grind

/-- What comes next inside an object: its end, or a member, whose quote is passed over. A comma
stands before every member but the first. -/
def nextMember (first : Bool) (text : List Char) :
    Except Refusal (Option (List Char) × List Char) :=
  let quoted : List Char → Except Refusal (Option (List Char) × List Char)
    | [] => .error .incomplete
    | '"' :: rest =>
      match readString rest with
      | .error e => .error e
      | .ok (key, rest) => .ok (some key, rest)
    | _ => .error .malformed
  match dropBlank text with
  | [] => .error .incomplete
  | c :: rest =>
    if c = '}' then .ok (none, rest)
    else if first then quoted (c :: rest)
    else if c = ',' then quoted (dropBlank rest)
    else .error .malformed

theorem length_lt_of_nextMember {first : Bool} {key : Option (List Char)} {text rest : List Char}
    (h : nextMember first text = .ok (key, rest)) : rest.length < text.length := by
  unfold nextMember at h
  simp only at h
  split at h
  · simp at h
  · next c tail hb =>
    have := Json.length_lt_of_dropBlank hb
    have := Json.length_dropBlank_le tail
    split at h
    · grind
    · split at h
      · split at h
        · simp at h
        · split at h
          · simp at h
          · next hs =>
            have := Json.length_lt_of_readString hs
            grind
        · simp at h
      · split at h
        · split at h
          · simp at h
          · split at h
            · simp at h
            · next hs =>
              have := Json.length_lt_of_readString hs
              grind
          · simp at h
        · simp at h

/-- Reads the members of an object up to its closing brace. -/
def readMembers (found : Found) (first : Bool) (text : List Char) :
    Except Refusal (Limits × List Char) :=
  match h : nextMember first text with
  | .error e => .error e
  | .ok (none, rest) => .ok (found.limits, rest)
  | .ok (some key, rest) =>
    have := length_lt_of_nextMember h
    match hm : found.readMember key rest with
    | .error e => .error e
    | .ok (found, rest) =>
      have := Found.length_le_of_readMember hm
      readMembers found false rest
termination_by text.length
decreasing_by omega

/-- Reads the next item of a list, if there is one. The closing bracket is left. -/
def nextItem (first : Bool) (text : List Char) : Except Refusal (Option UInt64 × List Char) :=
  let item (text : List Char) : Except Refusal (Option UInt64 × List Char) :=
    match readCount text with
    | .error e => .error e
    | .ok (n, rest) => .ok (some n, rest)
  match dropBlank text with
  | [] => .error .incomplete
  | c :: rest =>
    if c = ']' then .ok (none, c :: rest)
    else if first then item (c :: rest)
    else if c = ',' then
      match dropBlank rest with
      | ']' :: _ => .error .malformed
      | rest => item rest
    else .error .malformed

/-- Reads a list of up to two limits up to its closing bracket. -/
def readItems (text : List Char) : Except Refusal (Limits × List Char) := do
  let (depth, rest) ← nextItem true text
  let (values, rest) ← nextItem depth.isNone rest
  let found : Found := ⟨depth, values⟩
  match dropBlank rest with
  | [] => .error .incomplete
  | ']' :: rest => .ok (found.limits, rest)
  | _ => .error .malformed

/-- Reads the limits that a JSON text stands for. Nothing else follows them. -/
def ofJson (text : String) : Except Refusal Limits := do
  let (limits, rest) ←
    match dropBlank text.toList with
    | '[' :: rest => readItems rest
    | '{' :: rest => readMembers {} true rest
    | rest => .error (Json.refuse rest)
  if (dropBlank rest).isEmpty then .ok limits else .error .malformed

end Limits

end BinaryLayout
