import BinaryLayout.Binary64
import BinaryLayout.Decimal.Shortest
import BinaryLayout.Json.Refusal

/-!
# Reading JSON numbers

A number is an optional minus sign, digits without a needless zero in front, an optional fraction
and an optional exponent. It is read as a `Numeral`, which keeps its digits. Only plain digits
stand for a word of 64 bits (`Numeral.word?`); all other numbers are doubles, and one that is too
great for a double is no number at all (`Numeral.isTooGreat`).
-/

namespace BinaryLayout.Json

/-- The parts of a number as they are written. -/
structure Numeral where
  negative : Bool
  whole : List Char
  fraction : List Char
  /-- Whether there is a fraction or an exponent. -/
  plain : Bool
  exponent : Int
deriving DecidableEq, Repr

/-- The number that digits stand for. -/
def digitsValue (digits : List Char) : Nat := Nat.ofDigitChars 10 digits 0

namespace Numeral

/-- Goes on to write digits behind `n` as long as the number stays below `2 ^ 64`, and gives the
number of digits left over. -/
def leading : Nat → List Char → Nat × Nat
  | n, [] => (n, 0)
  | n, d :: digits =>
    let next := 10 * n + (d.toNat - '0'.toNat)
    if next < UInt64.size then leading next digits else (n, digits.length + 1)

/-- The leading digits of the number as an integer below `2 ^ 64`, and the power of ten that it
has to be multiplied with. -/
def scaled (numeral : Numeral) : Nat × Int :=
  let (n, more) := leading 0 numeral.whole
  let (n, unused) := leading n numeral.fraction
  (n, more - (numeral.fraction.length - unused : Nat) + numeral.exponent)

/-- `n` rounded to the 53 bits of a double, a tie to the even neighbour. -/
def round53 (n : Nat) : Nat :=
  let shift := Nat.log2 n - 52
  Binary64.roundShift n shift <<< shift

/-- Whether the number is too great for a double: its leading digits and the power of ten are
rounded to doubles, and their product rounds to infinity. -/
def isTooGreat (numeral : Numeral) : Bool :=
  let (n, power) := numeral.scaled
  if n = 0 ∨ power < 0 then false
  else if 308 < power then true
  else 1 <<< 1024 - 1 <<< 970 ≤ round53 n * round53 (Decimal.powerOfTen power.toNat)

/-- The word that plain digits stand for, if it is below `2 ^ 64`. -/
def word? (numeral : Numeral) : Option UInt64 :=
  if numeral.plain && !numeral.negative then
    let n := digitsValue numeral.whole
    if n < UInt64.size then some (UInt64.ofNat n) else none
  else none

end Numeral

/-- Reads one digit or more. `atEnd` is the refusal of a text that has none and ends. -/
def readDigits (atEnd : Refusal) (text : List Char) : Except Refusal (List Char × List Char) :=
  match text with
  | [] => .error atEnd
  | c :: _ =>
    if c.isDigit then .ok (text.takeWhile Char.isDigit, text.dropWhile Char.isDigit)
    else .error .malformed

/-- Reads the digits before the point. No digit follows a zero that comes first. -/
def readWhole (atEnd : Refusal) (text : List Char) : Except Refusal (List Char × List Char) :=
  match readDigits atEnd text with
  | .error e => .error e
  | .ok ('0' :: _ :: _, _) => .error .malformed
  | .ok (digits, rest) => .ok (digits, rest)

/-- Reads a fraction, if there is one. -/
def readFraction (atEnd : Refusal) : List Char → Except Refusal (Option (List Char) × List Char)
  | '.' :: rest =>
    match readDigits atEnd rest with
    | .error e => .error e
    | .ok (digits, rest) => .ok (some digits, rest)
  | text => .ok (none, text)

/-- Reads the sign of an exponent: whether it is a minus sign. -/
def readSign : List Char → Bool × List Char
  | '-' :: rest => (true, rest)
  | '+' :: rest => (false, rest)
  | text => (false, text)

/-- Reads an exponent behind its letter. -/
def readPower (atEnd : Refusal) (text : List Char) : Except Refusal (Int × List Char) :=
  let (negative, rest) := readSign text
  match readDigits atEnd rest with
  | .error e => .error e
  | .ok (digits, rest) =>
    let n := digitsValue digits
    .ok (if negative then -(n : Int) else n, rest)

/-- Reads an exponent, if there is one. -/
def readExponent (atEnd : Refusal) : List Char → Except Refusal (Option Int × List Char)
  | [] => .ok (none, [])
  | c :: rest =>
    if c = 'e' ∨ c = 'E' then
      match readPower atEnd rest with
      | .error e => .error e
      | .ok (n, rest) => .ok (some n, rest)
    else .ok (none, c :: rest)

/-- Reads a number. `atEnd` is the refusal of a number that is cut off. -/
def readNumeral (atEnd : Refusal) (text : List Char) : Except Refusal (Numeral × List Char) := do
  let negative := text.head? == some '-'
  let (whole, rest) ← readWhole atEnd (if negative then text.tail else text)
  let (fraction, rest) ← readFraction atEnd rest
  let (exponent, rest) ← readExponent atEnd rest
  .ok (⟨negative, whole, fraction.getD [], fraction.isNone && exponent.isNone, exponent.getD 0⟩,
    rest)

/-- Reads a number that a double can hold. -/
def readNumber (text : List Char) : Except Refusal (Numeral × List Char) := do
  let (numeral, rest) ← readNumeral .incomplete text
  if numeral.isTooGreat then .error .malformed else .ok (numeral, rest)

/-- Whether a number begins with `c`. -/
def startsNumber (c : Char) : Bool := c == '-' || c.isDigit

/-! ## What is read is gone -/

theorem length_lt_of_readDigits {atEnd : Refusal} {digits text rest : List Char}
    (h : readDigits atEnd text = .ok (digits, rest)) : rest.length < text.length := by
  unfold readDigits at h
  split at h
  · simp at h
  · next c tail =>
    split at h
    · next hc =>
      simp only [Except.ok.injEq, Prod.mk.injEq] at h
      have := List.IsSuffix.length_le (List.dropWhile_suffix Char.isDigit (l := tail))
      rw [← h.2, List.dropWhile_cons_of_pos hc, List.length_cons]
      omega
    · simp at h

theorem length_lt_of_readWhole {atEnd : Refusal} {digits text rest : List Char}
    (h : readWhole atEnd text = .ok (digits, rest)) : rest.length < text.length := by
  unfold readWhole at h
  split at h
  · simp at h
  · simp at h
  · next hd =>
    have := length_lt_of_readDigits hd
    grind

theorem length_le_of_readFraction {atEnd : Refusal} {digits : Option (List Char)}
    {text rest : List Char} (h : readFraction atEnd text = .ok (digits, rest)) :
    rest.length ≤ text.length := by
  unfold readFraction at h
  split at h
  · split at h
    · simp at h
    · next hd =>
      have := length_lt_of_readDigits hd
      grind
  · grind

theorem length_readSign_le (text : List Char) : (readSign text).2.length ≤ text.length := by
  unfold readSign
  split <;> simp

theorem length_le_of_readExponent {atEnd : Refusal} {exponent : Option Int}
    {text rest : List Char} (h : readExponent atEnd text = .ok (exponent, rest)) :
    rest.length ≤ text.length := by
  unfold readExponent at h
  split at h
  · grind
  · next c tail =>
    split at h
    · split at h
      · simp at h
      · next hp =>
        unfold readPower at hp
        have := length_readSign_le tail
        simp only at hp
        split at hp
        · simp at hp
        · next hd =>
          have := length_lt_of_readDigits hd
          grind
    · grind

theorem length_lt_of_readNumeral {atEnd : Refusal} {numeral : Numeral} {text rest : List Char}
    (h : readNumeral atEnd text = .ok (numeral, rest)) : rest.length < text.length := by
  simp only [readNumeral, bind, Except.bind] at h
  split at h
  · simp at h
  · next whole hw =>
    have h₁ := length_lt_of_readWhole hw
    split at h
    · simp at h
    · next fraction hf =>
      have h₂ := length_le_of_readFraction hf
      split at h
      · simp at h
      · next exponent he =>
        have h₃ := length_le_of_readExponent he
        have h₄ : text.tail.length ≤ text.length := by simp
        grind

theorem length_lt_of_readNumber {numeral : Numeral} {text rest : List Char}
    (h : readNumber text = .ok (numeral, rest)) : rest.length < text.length := by
  simp only [readNumber, bind, Except.bind] at h
  split at h
  · simp at h
  · next hn =>
    have := length_lt_of_readNumeral hn
    grind

end BinaryLayout.Json
