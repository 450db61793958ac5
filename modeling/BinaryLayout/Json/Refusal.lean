/-!
# Refusing a JSON text

Reading goes from left to right and stops at the first thing that cannot stand where it is. What
is wrong is one of three things, and which of them it is depends on the text up to that place only.
-/

namespace BinaryLayout.Json

/-- Why a text is refused. -/
inductive Refusal where
  /-- The text ends too early. -/
  | incomplete
  /-- No JSON text goes on like this. -/
  | malformed
  /-- This is JSON, but not of the kind that belongs here. -/
  | mismatch
deriving DecidableEq, Repr

/-- Whether `c` may stand between the parts of a text. -/
def isBlank (c : Char) : Bool := c == ' ' || c == '\t' || c == '\n' || c == '\r'

/-- The text from its next part on. -/
def dropBlank (text : List Char) : List Char := text.dropWhile isBlank

theorem length_dropBlank_le (text : List Char) : (dropBlank text).length ≤ text.length :=
  List.IsSuffix.length_le (List.dropWhile_suffix _)

theorem length_lt_of_dropBlank {c : Char} {text rest : List Char}
    (h : dropBlank text = c :: rest) : rest.length < text.length := by
  have := length_dropBlank_le text
  rw [h] at this
  exact this

/-- The text after the given characters, all of which must come next. -/
def readWord : List Char → List Char → Except Refusal (List Char)
  | [], text => .ok text
  | _ :: _, [] => .error .incomplete
  | w :: word, c :: text => if c = w then readWord word text else .error .malformed

theorem length_le_of_readWord {word text rest : List Char} (h : readWord word text = .ok rest) :
    rest.length ≤ text.length := by
  fun_induction readWord word text <;> grind

end BinaryLayout.Json
