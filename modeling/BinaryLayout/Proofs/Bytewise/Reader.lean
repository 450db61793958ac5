import BinaryLayout.Format
import BinaryLayout.Proofs.Encoding.Utf8

/-!
# Reading a format byte by byte

A format arrives as the bytes of a text.  This reader goes through them one by one and knows nothing
of characters: it looks for the bytes of ASCII characters, and any other byte means nothing to it.
So it steps over the parts of a longer character one at a time, and a backslash hides one byte.

Only at two places does it need characters again.  The bytes of a field name become text, and an
error quotes the text from some byte on.  Both can fail: the bytes might be ill-formed, and the byte
might stand inside a character.  What happens then is left open, as a `Repair`.

`parseFrom_eq` unfolds one token, as `Layout.parseFrom_eq` does for a reader of characters.
-/

namespace BinaryLayout.Bytewise

/-- How bytes become text where they need not be well-formed. -/
structure Repair where
  /-- The text that the bytes of a name stand for. -/
  name : List UInt8 → List Char
  /-- Well-formed bytes are read as they are. -/
  name_encode (text : List Char) : name (Utf8.encode text) = text
  /-- What is quoted from a byte that stands inside a character. -/
  inside : List Char

/-- Ill-formed bytes become replacement characters; nothing is quoted from inside a character. -/
def Repair.lossy : Repair := ⟨Utf8.decode, Utf8.decode_encode, []⟩

/-- The character whose number is `b`; a byte that stands for itself is one of ASCII. -/
def asChar (b : UInt8) : Char := Char.ofNat b.toNat

/-! ## Counts and names -/

/-- Reads the digits that come first, as a count if there are any. -/
def readCount (bytes : List UInt8) : Option Nat × List UInt8 :=
  let digits := (bytes.takeWhile fun b => (asChar b).isDigit).map asChar
  (if digits.isEmpty then none else some (Count.ofDigits digits),
    bytes.dropWhile fun b => (asChar b).isDigit)

/-- Drops what stands before the next name or closing brace. A backslash hides the byte after
it. -/
def seek : List UInt8 → List UInt8
  | [] => []
  | b :: rest =>
    if FieldName.isStart (asChar b) || asChar b == '}' then b :: rest
    else if asChar b = '\\' then
      match rest with
      | [] => []
      | _ :: rest => seek rest
    else seek rest

/-- What a backslash before `b` stands for. -/
def unescape (b : UInt8) : List UInt8 :=
  if asChar b = ':' ∨ asChar b = '\\' then [b] else ['\\'.toNat.toUInt8, b]

/-- Reads the bytes of a name up to its colon, with what follows the colon. -/
def readName? : List UInt8 → Option (List UInt8 × List UInt8)
  | [] => none
  | b :: rest =>
    if asChar b = ':' then some ([], rest)
    else if asChar b = '}' then none
    else if asChar b = '\\' then
      match rest with
      | [] => none
      | d :: rest => (readName? rest).map fun (name, rest) => (unescape d ++ name, rest)
    else (readName? rest).map fun (name, rest) => (b :: name, rest)

/-- The text from its byte `n` on, unless that stands inside a character. -/
def textFrom? : List Char → Nat → Option (List Char)
  | text, 0 => some text
  | [], _ + 1 => none
  | c :: text, n + 1 => if c.utf8Size ≤ n + 1 then textFrom? text (n + 1 - c.utf8Size) else none

/-- The beginning of what `source` holds where only `rest` is left of its bytes. -/
def preview (repair : Repair) (source : List Char) (rest : List UInt8) : String :=
  FormatError.preview
    ((textFrom? source ((Utf8.encode source).length - rest.length)).getD repair.inside)

/-- Finds the next field name of a record. -/
def nextName? (repair : Repair) (source : List Char) (bytes : List UInt8) :
    Except FormatError (Option (List Char × List UInt8)) :=
  match seek bytes with
  | [] => .ok none
  | b :: rest =>
    if asChar b = '}' then .ok (some ([], b :: rest))
    else
      match readName? (b :: rest) with
      | some (name, rest) =>
        .ok (some (repair.name name, rest.dropWhile fun b => Text.isAsciiBlank (asChar b)))
      | none => .error (.unterminatedName (preview repair source (b :: rest)))

/-! ## Tokens -/

/-- The code that comes first, with what follows it. The longer form wins. -/
def code? : List UInt8 → Option (Code × List UInt8)
  | [] => none
  | [b] => some (.ofChar (asChar b), [])
  | b :: d :: rest =>
    match Code.ofPair? (asChar b) (asChar d) with
    | some code => some (code, rest)
    | none => some (.ofChar (asChar b), d :: rest)

/-- Reads a code and its count under a name. -/
def readToken? (name : Option String) (bytes : List UInt8) : Option (Token × List UInt8) :=
  (code? bytes).map fun (code, rest) =>
    let (count, rest) := readCount rest
    (⟨name, code, count⟩, rest)

/-- Reads the next token of `source`, of which `bytes` are left. -/
def next? (repair : Repair) (source : List Char) (inRecord : Bool) (bytes : List UInt8) :
    Except FormatError (Option (Token × List UInt8)) :=
  if inRecord then
    match nextName? repair source bytes with
    | .error e => .error e
    | .ok none => .ok none
    | .ok (some (name, rest)) => .ok (readToken? (some (String.ofList name)) rest)
  else
    .ok (readToken? none bytes)

/-! ## What a token leaves is shorter -/

theorem length_readCount_le (bytes : List UInt8) : (readCount bytes).2.length ≤ bytes.length :=
  List.IsSuffix.length_le (List.dropWhile_suffix _)

theorem length_seek_le (bytes : List UInt8) : (seek bytes).length ≤ bytes.length := by
  fun_induction seek bytes <;> grind

theorem length_lt_of_readName? {bytes name rest : List UInt8}
    (h : readName? bytes = some (name, rest)) : rest.length < bytes.length := by
  fun_induction readName? bytes generalizing name rest with
  | case1 | case3 | case4 => simp at h
  | case2 => grind
  | case5 _ _ _ _ _ _ ih | case6 _ _ _ _ _ ih =>
    obtain ⟨⟨more, left⟩, hr, he⟩ := Option.map_eq_some_iff.1 h
    have := ih hr
    grind

section

variable {repair : Repair} {source : List Char} {bytes rest : List UInt8}

theorem length_le_of_nextName? {name : List Char}
    (h : nextName? repair source bytes = .ok (some (name, rest))) :
    rest.length ≤ bytes.length := by
  have hseek := length_seek_le bytes
  unfold nextName? at h
  split at h
  · cases h
  · next b tail hs =>
    rw [hs] at hseek
    split at h
    · cases h
      exact hseek
    · split at h
      · next n r hr =>
        cases h
        have hread := length_lt_of_readName? hr
        have hblank := List.IsSuffix.length_le
          (List.dropWhile_suffix (fun b => Text.isAsciiBlank (asChar b)) (l := r))
        omega
      · cases h

theorem length_lt_of_code? {code : Code} (h : code? bytes = some (code, rest)) :
    rest.length < bytes.length := by
  unfold code? at h
  split at h <;> grind

theorem length_lt_of_readToken? {name : Option String} {token : Token}
    (h : readToken? name bytes = some (token, rest)) : rest.length < bytes.length := by
  obtain ⟨⟨code, tail⟩, hcode, he⟩ := Option.map_eq_some_iff.1 h
  have hlt := length_lt_of_code? hcode
  have hle := length_readCount_le tail
  cases he
  exact Nat.lt_of_le_of_lt hle hlt

/-- A token takes at least one byte. -/
theorem length_lt_of_next? {inRecord : Bool} {token : Token}
    (h : next? repair source inRecord bytes = .ok (some (token, rest))) :
    rest.length < bytes.length := by
  unfold next? at h
  split at h
  · split at h
    · cases h
    · cases h
    · next n r hn =>
      have hle := length_le_of_nextName? hn
      have hlt := length_lt_of_readToken? (Except.ok.inj h)
      omega
  · exact length_lt_of_readToken? (Except.ok.inj h)

end

/-! ## Layouts -/

/-- A layout with the bytes after it, which are no more than it was read from. -/
abbrev Parsed (bytes : List UInt8) := { r : Layout × List UInt8 // r.2.length ≤ bytes.length }

/-- Reads a layout up to the end of the group it stands in, or up to the end of the bytes if it
stands in none. -/
def parseWithin (repair : Repair) (source : List Char) (limit : Nat) (within : Option GroupKind)
    (depth : Nat) (bytes : List UInt8) : Except FormatError (Parsed bytes) :=
  match h : next? repair source (within == some .record) bytes with
  | .error e => .error e
  | .ok none =>
    match within with
    | some kind => .error (.unterminatedGroup kind)
    | none => .ok ⟨(.done, []), Nat.zero_le _⟩
  | .ok (some (token, rest)) =>
    have hr : rest.length < bytes.length := length_lt_of_next? h
    have hle : rest.length ≤ bytes.length := Nat.le_of_lt hr
    let count := token.count.getD 1
    match token.code with
    | .field f =>
      match parseWithin repair source limit within depth rest with
      | .error e => .error e
      | .ok ⟨(more, left), hl⟩ =>
        .ok ⟨(.field token.name f count more, left), Nat.le_trans hl hle⟩
    | .opening kind =>
      if count = 0 then .error (.zeroRepeat kind)
      else if limit ≤ depth then .error (.tooDeep limit)
      else
        match parseWithin repair source limit (some kind) (depth + 1) rest with
        | .error e => .error e
        | .ok ⟨(body, behind), hb⟩ =>
          match parseWithin repair source limit within depth behind with
          | .error e => .error e
          | .ok ⟨(more, left), hl⟩ =>
            .ok ⟨(.group token.name kind count body more, left),
              Nat.le_trans hl (Nat.le_trans hb hle)⟩
    | .closing =>
      if within.isSome then .ok ⟨(.done, rest), hle⟩
      else
        match parseWithin repair source limit within depth rest with
        | .error e => .error e
        | .ok ⟨(more, left), hl⟩ => .ok ⟨(more, left), Nat.le_trans hl hle⟩
    | .blank =>
      match parseWithin repair source limit within depth rest with
      | .error e => .error e
      | .ok ⟨(more, left), hl⟩ => .ok ⟨(more, left), Nat.le_trans hl hle⟩
termination_by bytes.length
decreasing_by all_goals grind

/-- Reads a layout and gives the bytes after it. -/
def parseFrom (repair : Repair) (source : List Char) (limit : Nat) (within : Option GroupKind)
    (depth : Nat) (bytes : List UInt8) : Except FormatError (Layout × List UInt8) :=
  (parseWithin repair source limit within depth bytes).map (·.1)

/-- Reading one token at a time. -/
theorem parseFrom_eq (repair : Repair) (source : List Char) (limit : Nat)
    (within : Option GroupKind) (depth : Nat) (bytes : List UInt8) :
    parseFrom repair source limit within depth bytes =
      match next? repair source (within == some .record) bytes with
      | .error e => .error e
      | .ok none =>
        match within with
        | some kind => .error (.unterminatedGroup kind)
        | none => .ok (.done, [])
      | .ok (some (token, rest)) =>
        match token.code with
        | .field f => do
          let (more, left) ← parseFrom repair source limit within depth rest
          .ok (.field token.name f (token.count.getD 1) more, left)
        | .opening kind =>
          if token.count.getD 1 = 0 then .error (.zeroRepeat kind)
          else if limit ≤ depth then .error (.tooDeep limit)
          else do
            let (body, behind) ← parseFrom repair source limit (some kind) (depth + 1) rest
            let (more, left) ← parseFrom repair source limit within depth behind
            .ok (.group token.name kind (token.count.getD 1) body more, left)
        | .closing =>
          if within.isSome then .ok (.done, rest)
          else parseFrom repair source limit within depth rest
        | .blank => parseFrom repair source limit within depth rest := by
  unfold parseFrom
  generalize hw : parseWithin repair source limit within depth bytes = result
  rw [parseWithin] at hw
  split at hw
  · next e ht =>
    subst hw
    rw [ht]
    rfl
  · next ht =>
    cases within <;> subst hw <;> simp only [ht, Except.map]
  · next token rest ht =>
    simp only [ht]
    split at hw
    · cases h : parseWithin repair source limit within depth rest <;>
        rw [h] at hw <;> subst hw <;> rfl
    · by_cases h₀ : token.count.getD 1 = 0
      · simp only [h₀, if_true] at hw ⊢
        subst hw
        rfl
      · by_cases h₁ : limit ≤ depth
        · simp only [h₀, h₁, if_true, if_false] at hw ⊢
          subst hw
          rfl
        · simp only [h₀, h₁, if_false] at hw ⊢
          split at hw
          · next e hb =>
            subst hw
            rw [hb]
            rfl
          · next body behind hl hb =>
            rw [hb]
            simp only [Except.map, bind, Except.bind]
            cases hm : parseWithin repair source limit within depth behind <;>
              rw [hm] at hw <;> subst hw <;> rfl
    · split at hw
      · next h₀ =>
        subst hw
        rw [if_pos h₀]
        rfl
      · next h₀ =>
        rw [if_neg h₀]
        cases h : parseWithin repair source limit within depth rest <;>
          rw [h] at hw <;> subst hw <;> rfl
    · cases h : parseWithin repair source limit within depth rest <;>
        rw [h] at hw <;> subst hw <;> rfl

/-- Reads the bytes of a text as a format under limits. -/
def ofText (repair : Repair) (limits : Limits) (source : String) : Except FormatError Format := do
  let (layout, _) ←
    parseFrom repair source.toList limits.depth.toNat none 0 source.toUTF8.data.toList
  if limits.values.toNat < layout.yield then
    .error (.tooManyValues limits.values.toNat)
  else
    .ok ⟨source, layout⟩

end BinaryLayout.Bytewise
