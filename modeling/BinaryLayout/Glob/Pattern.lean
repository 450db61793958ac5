import BinaryLayout.Files.Path

/-!
# Glob patterns

A pattern is a path in which `?` stands for any character of a name, `*` for any characters,
brackets for one character of a class, and `**` as a whole part for any number of directories.

`Pattern.ofText` reads a pattern. The text has to make sense as a whole and also part by part, so
a class may not go beyond a slash.
-/

namespace BinaryLayout.Glob

/-- Why a text is no pattern. -/
inductive Error where
  /-- More than two stars stand together. -/
  | tooManyStars
  /-- Two stars are only part of what stands between two slashes. -/
  | partialStars
  /-- A bracket opens no class. -/
  | badClass
deriving DecidableEq, Repr

/-- What is wrong, in words. -/
def Error.message : Error → String
  | .tooManyStars => "wildcards are either regular \x60*\x60 or recursive \x60**\x60"
  | .partialStars => "recursive wildcards must form a single path component"
  | .badClass => "invalid range pattern"

/-- One element of a pattern. -/
inductive Token where
  | char (c : Char)
  | anyChar
  | anyChars
  /-- Any number of directories. -/
  | anyDepth
  /-- A character in one of the ranges, or in none of them. -/
  | oneOf (negated : Bool) (ranges : List (Char × Char))
deriving DecidableEq, Repr

/-- The ranges that a class consists of; a single character is a range of its own. -/
def ranges : List Char → List (Char × Char)
  | [] => []
  | [a] => [(a, a)]
  | [a, b] => [(a, a), (b, b)]
  | a :: b :: c :: rest =>
    if b = '-' then (a, c) :: ranges rest else (a, a) :: ranges (b :: c :: rest)

/-- The characters up to the closing bracket, and what follows it. The first character belongs to
the class even if it is a bracket. -/
def readMembers : List Char → Option (List Char × List Char)
  | [] => none
  | c :: rest =>
    match rest.dropWhile (· != ']') with
    | [] => none
    | _ :: left => some (c :: rest.takeWhile (· != ']'), left)

/-- Reads a class from behind its opening bracket. -/
def readClass : List Char → Option (Token × List Char)
  | '!' :: rest =>
    (readMembers rest).map fun (members, left) => (.oneOf true (ranges members), left)
  | rest =>
    (readMembers rest).map fun (members, left) => (.oneOf false (ranges members), left)

theorem length_lt_of_readMembers {text members left : List Char}
    (h : readMembers text = some (members, left)) : left.length < text.length := by
  unfold readMembers at h
  split at h
  · simp at h
  · next c rest =>
    have := List.IsSuffix.length_le (List.dropWhile_suffix (· != ']') (l := rest))
    split at h
    · simp at h
    · next hd =>
      rw [hd] at this
      grind

theorem length_lt_of_readClass {text left : List Char} {token : Token}
    (h : readClass text = some (token, left)) : left.length < text.length := by
  unfold readClass at h
  split at h
  all_goals
    obtain ⟨⟨members, rest⟩, hm, he⟩ := Option.map_eq_some_iff.1 h
    have := length_lt_of_readMembers hm
    grind

/-- Reads the elements of a pattern. `before` is the character in front of the text. -/
def readTokens (before : Option Char) (text : List Char) : Except Error (List Token) :=
  match text with
  | [] => .ok []
  | c :: rest =>
    if c = '?' then (readTokens (some c) rest).map (.anyChar :: ·)
    else if c = '*' then
      have := List.IsSuffix.length_le (List.dropWhile_suffix (· == '*') (l := rest))
      match (rest.takeWhile (· == '*')).length with
      | 0 => (readTokens (some c) rest).map (.anyChars :: ·)
      | 1 =>
        if before.all (· == '/') then
          match hs : rest.dropWhile (· == '*') with
          | [] => .ok [.anyDepth]
          | d :: left =>
            if d = '/' then
              have := hs ▸ this
              (readTokens (some d) left).map (.anyDepth :: ·)
            else .error .partialStars
        else .error .partialStars
      | _ => .error .tooManyStars
    else if c = '[' then
      match h : readClass rest with
      | none => .error .badClass
      | some (token, left) =>
        have := length_lt_of_readClass h
        (readTokens (some ']') left).map (token :: ·)
    else (readTokens (some c) rest).map (.char c :: ·)
termination_by text.length
decreasing_by all_goals grind

/-- Whether an element that stands for one character stands for this one. -/
def Token.admits (c : Char) : Token → Bool
  | .char d => c == d
  | .anyChar => true
  | .oneOf negated ranges => (ranges.any fun (low, high) => low ≤ c && c ≤ high) != negated
  | _ => false

/-- How a name compares with some elements. -/
inductive Verdict where
  | fits
  /-- Some character is wrong; a later part of the name may still fit. -/
  | differs
  /-- The name is too short, and so is every later part of it. -/
  | ends
deriving DecidableEq, Repr

/-- Compares a name with some elements. Any characters are first tried as none at all. -/
def compare : List Token → List Char → Verdict
  | [], [] => .fits
  | [], _ :: _ => .differs
  | .anyChars :: tokens, [] => compare tokens []
  | .anyChars :: tokens, c :: name =>
    match compare tokens (c :: name) with
    | .differs => compare (.anyChars :: tokens) name
    | verdict => verdict
  | _ :: _, [] => .ends
  | token :: tokens, c :: name => if token.admits c then compare tokens name else .differs
termination_by tokens name => tokens.length + name.length

/-- Whether a name is one of those that some elements stand for. -/
def matchesName (tokens : List Token) (name : List Char) : Bool := compare tokens name == .fits

/-- What stands between two slashes of a pattern. -/
inductive Part where
  /-- A name, or a part that leads nowhere or upwards. -/
  | literal (name : String)
  /-- Elements that stand for names. -/
  | names (tokens : List Token)
  /-- Any number of directories. -/
  | anyDepth
deriving DecidableEq, Repr

/-- The text of elements that are all characters. -/
def literal? : List Token → Option (List Char)
  | [] => some []
  | .char c :: tokens => (literal? tokens).map (c :: ·)
  | _ => none

/-- The part that elements make. -/
def Part.ofTokens (tokens : List Token) : Part :=
  if tokens = [.anyDepth] then .anyDepth
  else
    match literal? tokens with
    | some name => .literal (String.ofList name)
    | none => .names tokens

/-- Whether a name is one of those that a part stands for. -/
def Part.matchesName (name : String) : Part → Bool
  | .literal other => name == other
  | .names tokens => Glob.matchesName tokens name.toList
  | .anyDepth => true

/-- A pattern. -/
structure Pattern where
  /-- Whether it begins at the root. -/
  absolute : Bool
  parts : List Part
  /-- Whether it ends in a slash. -/
  directoriesOnly : Bool
deriving DecidableEq, Repr

/-- Leaves one of several parts `**` that follow one another. -/
def collapse : List Part → List Part
  | .anyDepth :: .anyDepth :: parts => collapse (.anyDepth :: parts)
  | part :: parts => part :: collapse parts
  | [] => []
termination_by parts => parts.length

/-- The texts between the slashes of a pattern; a slash at its end counts for nothing. -/
def partTexts (text : List Char) : List (List Char) :=
  let texts := Path.split text
  if texts.getLast? == some [] then texts.dropLast else texts

/-- Reads a pattern. -/
def Pattern.ofText (text : String) : Except Error Pattern := do
  let chars := text.toList
  let _ ← readTokens none chars
  let absolute := chars.head? == some '/'
  let parts ← (partTexts (if absolute then chars.tail else chars)).mapM fun part => do
    return Part.ofTokens (← readTokens none part)
  return ⟨absolute, collapse parts, chars.getLast? == some '/'⟩

/-- Whether a text is meant as a pattern. -/
def isPattern (text : String) : Bool :=
  text.toList.any fun c => c == '*' || c == '?' || c == '['

end BinaryLayout.Glob
