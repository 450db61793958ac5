import BinaryLayout.Json.Refusal
import BinaryLayout.Text.Hex

/-!
# Reading JSON strings

A string is read from behind its opening quote up to its closing one (`readString`). An escape
with four digits gives one unit of UTF-16: two of them may make one character together, and half
of such a pair is refused. Where only the end of the string matters it is passed over
(`skipString`), and halves of pairs pass with it.
-/

namespace BinaryLayout.Json

/-- What stands behind a backslash: a character, or a unit of UTF-16. -/
inductive Escape where
  | char (c : Char)
  | unit (n : Nat)
deriving DecidableEq, Repr

/-- The value of a hexadecimal digit. -/
def hexValue? (c : Char) : Option Nat := if c.toNat < 128 then Hex.value? c.toUInt8 else none

/-- Reads four hexadecimal digits. With fewer than four bytes left the text has ended. -/
def readUnit (text : List Char) : Except Refusal (Nat × List Char) :=
  if (String.ofList (text.take 4)).utf8ByteSize < 4 then .error .incomplete
  else
    match text with
    | a :: b :: c :: d :: rest =>
      match hexValue? a, hexValue? b, hexValue? c, hexValue? d with
      | some a, some b, some c, some d => .ok (((a * 16 + b) * 16 + c) * 16 + d, rest)
      | _, _, _, _ => .error .malformed
    | _ => .error .malformed

/-- Reads what stands behind a backslash. -/
def readEscape : List Char → Except Refusal (Escape × List Char)
  | [] => .error .incomplete
  | '"' :: rest => .ok (.char '"', rest)
  | '\\' :: rest => .ok (.char '\\', rest)
  | '/' :: rest => .ok (.char '/', rest)
  | 'b' :: rest => .ok (.char '\x08', rest)
  | 'f' :: rest => .ok (.char '\x0c', rest)
  | 'n' :: rest => .ok (.char '\n', rest)
  | 'r' :: rest => .ok (.char '\r', rest)
  | 't' :: rest => .ok (.char '\t', rest)
  | 'u' :: rest =>
    match readUnit rest with
    | .error e => .error e
    | .ok (n, rest) => .ok (.unit n, rest)
  | _ :: _ => .error .malformed

/-- Whether a unit is the first half of a pair. -/
def isLeading (n : Nat) : Bool := 0xD800 ≤ n && n ≤ 0xDBFF

/-- Whether a unit is the second half of a pair. -/
def isTrailing (n : Nat) : Bool := 0xDC00 ≤ n && n ≤ 0xDFFF

/-- The character whose first half is `leading`; the second half must come next. -/
def readPair (leading : Nat) : List Char → Except Refusal (Char × List Char)
  | [] => .error .incomplete
  | ['\\'] => .error .incomplete
  | '\\' :: 'u' :: rest =>
    match readUnit rest with
    | .error e => .error e
    | .ok (n, rest) =>
      if isTrailing n then
        .ok (Char.ofNat (0x10000 + (leading - 0xD800) * 0x400 + (n - 0xDC00)), rest)
      else .error .malformed
  | _ => .error .malformed

/-- Reads the character that stands behind a backslash. -/
def readEscaped (text : List Char) : Except Refusal (Char × List Char) :=
  match readEscape text with
  | .error e => .error e
  | .ok (.char c, rest) => .ok (c, rest)
  | .ok (.unit n, rest) =>
    if isTrailing n then .error .malformed
    else if isLeading n then readPair n rest
    else .ok (Char.ofNat n, rest)

/-! ## What is read is gone -/

theorem length_lt_of_readUnit {n : Nat} {text rest : List Char}
    (h : readUnit text = .ok (n, rest)) : rest.length < text.length := by
  unfold readUnit at h
  grind

theorem length_lt_of_readEscape {escape : Escape} {text rest : List Char}
    (h : readEscape text = .ok (escape, rest)) : rest.length < text.length := by
  unfold readEscape at h
  split at h
  case h_10 =>
    split at h
    · simp at h
    · next hr =>
      have := length_lt_of_readUnit hr
      grind
  all_goals grind

theorem length_lt_of_readPair {n : Nat} {c : Char} {text rest : List Char}
    (h : readPair n text = .ok (c, rest)) : rest.length < text.length := by
  unfold readPair at h
  split at h
  · simp at h
  · simp at h
  · split at h
    · simp at h
    · next hr =>
      have := length_lt_of_readUnit hr
      grind
  · simp at h

theorem length_lt_of_readEscaped {c : Char} {text rest : List Char}
    (h : readEscaped text = .ok (c, rest)) : rest.length < text.length := by
  unfold readEscaped at h
  split at h
  · simp at h
  · next hr =>
    have := length_lt_of_readEscape hr
    grind
  · next hr =>
    have := length_lt_of_readEscape hr
    split at h
    · simp at h
    · split at h
      · have := length_lt_of_readPair h
        omega
      · grind

/-! ## Strings -/

/-- Reads a string from behind its opening quote. -/
def readString (text : List Char) : Except Refusal (List Char × List Char) :=
  match text with
  | [] => .error .incomplete
  | c :: rest =>
    if c = '"' then .ok ([], rest)
    else if c = '\\' then
      match h : readEscaped rest with
      | .error e => .error e
      | .ok (c, left) =>
        have := length_lt_of_readEscaped h
        match readString left with
        | .error e => .error e
        | .ok (s, left) => .ok (c :: s, left)
    else if c.toNat < 0x20 then .error .malformed
    else
      match readString rest with
      | .error e => .error e
      | .ok (s, left) => .ok (c :: s, left)
termination_by text.length

/-- Passes over a string from behind its opening quote. -/
def skipString (text : List Char) : Except Refusal (List Char) :=
  match text with
  | [] => .error .incomplete
  | c :: rest =>
    if c = '"' then .ok rest
    else if c = '\\' then
      match h : readEscape rest with
      | .error e => .error e
      | .ok (_, left) =>
        have := length_lt_of_readEscape h
        skipString left
    else if c.toNat < 0x20 then .error .malformed
    else skipString rest
termination_by text.length

theorem length_lt_of_readString {s text rest : List Char} (h : readString text = .ok (s, rest)) :
    rest.length < text.length := by
  fun_induction readString text generalizing s rest <;> grind

theorem length_lt_of_skipString {text rest : List Char} (h : skipString text = .ok rest) :
    rest.length < text.length := by
  fun_induction skipString text <;> grind

end BinaryLayout.Json
