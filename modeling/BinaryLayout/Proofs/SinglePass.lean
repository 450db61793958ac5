import BinaryLayout.Format

/-!
# Decoding in a single pass over the text

A format can be carried out without ever building a layout: read a token, do at once to the
payload what it says, and read the next one. This module defines that interpreter and proves that
it and the two steps of the library, reading a layout and then running it, give the same answer.

There are three groups.

* The group under construction.  `Building` is what the interpreter has collected of the group it
  stands in: the data of an array so far, or the record so far.
* The interpreter.  `passWithin` goes from token to token and carries the position in the payload
  along.  The body of a group is not remembered: its text is read again for every repeat, each
  time from behind the count of the opening bracket (`bodyTimes`).  `passFrom_eq` unfolds one
  token without mention of lengths.
* The comparison.  `passFrom_eq_parseFrom_run` is the invariant of the induction over the text: a
  pass that has already built something goes on to build exactly what running the layout of the
  remaining text adds to it, and fails where that text is refused.
-/

namespace BinaryLayout.SinglePass

/-! ## The group under construction -/

/-- What has been collected of a group, or of the top level, whose end is not reached yet. -/
inductive Building where
  | items (data : List Datum)
  | fields (record : Mapping Datum)

namespace Building

/-- What there is before anything has been read. The top level collects data as an array does. -/
def start : Option GroupKind → Building
  | some .record => .fields .empty
  | _ => .items []

/-- Takes in the data that one field or group has yielded. Several data under one name are packed
into a sequence, and none leave the record as it is. -/
def add (name : Option String) (data : List Datum) : Building → Building
  | .items out => .items (out ++ data)
  | .fields record =>
    match name, data with
    | some name, [datum] => .fields (record.insert name datum)
    | some name, first :: second :: more =>
      .fields (record.insert name (.sequence (first :: second :: more)))
    | _, _ => .fields record

/-- The datum that the finished group is. -/
def close : Building → Datum
  | .items out => .sequence out
  | .fields record => .mapping record

/-- The data collected at top level. -/
def data : Building → List Datum
  | .items out => out
  | .fields record => [.mapping record]

end Building

/-! ## The interpreter -/

/-- Carries out a body `n + 1` times, each time from the position where the time before ended. What
the last time leaves of the text is what the group leaves. -/
def bodyTimes {τ : Type} (once : Position → Except FormatError (Datum × Position × τ)) :
    Nat → Position → Except FormatError (List Datum × Position × τ)
  | 0, p => do
    let (datum, q, left) ← once p
    .ok ([datum], q, left)
  | n + 1, p => do
    let (datum, q, _) ← once p
    let (data, r, left) ← bodyTimes once n q
    .ok (datum :: data, r, left)

/-- What a pass has built, the position it has reached, and the text behind it, which is no longer
than the text that it began with. -/
abbrev Passed (text : List Char) :=
  { r : Building × Position × List Char // r.2.2.length ≤ text.length }

/-- A pass over the rest of a text as a pass over the text. -/
def Passed.widen {rest text : List Char} (h : rest.length ≤ text.length) (passed : Passed rest) :
    Passed text :=
  ⟨passed.1, Nat.le_trans passed.2 h⟩

/-- Carries out a text up to the end of the group it stands in, or up to its own end if it stands
in none. At most `limit` groups may stand inside one another, of which `depth` are open. -/
def passWithin (limit : Nat) (bytes : Payload) (within : Option GroupKind) (depth : Nat)
    (text : List Char) (p : Position) (built : Building) : Except FormatError (Passed text) :=
  match h : Token.next? (within == some .record) text with
  | .error e => .error e
  | .ok none =>
    match within with
    | some kind => .error (.unterminatedGroup kind)
    | none => .ok ⟨(built, p, []), Nat.zero_le _⟩
  | .ok (some (token, rest)) =>
    have hr : rest.length < text.length := Token.length_of_next? h
    have hle : rest.length ≤ text.length := Nat.le_of_lt hr
    let count := token.count.getD 1
    match token.code with
    | .field f =>
      let reading := f.read count bytes p
      (passWithin limit bytes within depth rest reading.2 (built.add token.name reading.1)).map
        (Passed.widen hle)
    | .opening kind =>
      if count = 0 then .error (.zeroRepeat kind)
      else if limit ≤ depth then .error (.tooDeep limit)
      else
        let once (q : Position) :=
          (passWithin limit bytes (some kind) (depth + 1) rest q (.start (some kind))).map
            fun body => (body.1.1.close, body.1.2.1, (⟨body.1.2.2, body.2⟩ :
              { behind : List Char // behind.length ≤ rest.length }))
        match bodyTimes once (count - 1) p with
        | .error e => .error e
        | .ok (data, q, behind) =>
          (passWithin limit bytes within depth behind.1 q (built.add token.name data)).map
            (Passed.widen (Nat.le_trans behind.2 hle))
    | .closing =>
      if within.isSome then .ok ⟨(built, p, rest), hle⟩
      else (passWithin limit bytes within depth rest p built).map (Passed.widen hle)
    | .blank => (passWithin limit bytes within depth rest p built).map (Passed.widen hle)
termination_by text.length

/-- Carries out a text and gives what is built, the position reached and the text behind it. -/
def passFrom (limit : Nat) (bytes : Payload) (within : Option GroupKind) (depth : Nat)
    (text : List Char) (p : Position) (built : Building) :
    Except FormatError (Building × Position × List Char) :=
  (passWithin limit bytes within depth text p built).map Subtype.val

/-- One repeat of the body of a group: the datum it makes, the position and the text behind it. -/
def passBody (limit : Nat) (bytes : Payload) (kind : GroupKind) (depth : Nat) (text : List Char)
    (p : Position) : Except FormatError (Datum × Position × List Char) :=
  (passFrom limit bytes (some kind) depth text p (.start (some kind))).map
    fun (body, q, behind) => (body.close, q, behind)

/-- Carries out a whole text from `p` on: the data it yields and the position reached. -/
def pass (limit : Nat) (bytes : Payload) (text : List Char) (p : Position) :
    Except FormatError (List Datum × Position) :=
  (passFrom limit bytes none 0 text p (.start none)).map fun (built, q, _) => (built.data, q)

/-- Forgetting that a text is short commutes with carrying out a body several times. -/
theorem bodyTimes_map {σ τ : Type} (f : σ → τ)
    (once : Position → Except FormatError (Datum × Position × σ)) (n : Nat) (p : Position) :
    bodyTimes (fun q => (once q).map fun (datum, r, left) => (datum, r, f left)) n p =
      (bodyTimes once n p).map fun (data, r, left) => (data, r, f left) := by
  induction n generalizing p with
  | zero =>
    simp only [bodyTimes]
    cases once p <;> rfl
  | succ n ih =>
    simp only [bodyTimes]
    cases h : once p with
    | error e => rfl
    | ok first =>
      have hrest := ih first.2.1
      simp only [Except.map, bind, Except.bind] at hrest ⊢
      rw [hrest]
      cases bodyTimes once n first.2.1 <;> rfl

theorem map_val_map_widen {rest text : List Char} (h : rest.length ≤ text.length)
    (passed : Except FormatError (Passed rest)) :
    (passed.map (Passed.widen h)).map Subtype.val = passed.map Subtype.val := by
  cases passed <;> rfl

/-- Carrying out one token. -/
theorem passFrom_eq (limit : Nat) (bytes : Payload) (within : Option GroupKind) (depth : Nat)
    (text : List Char) (p : Position) (built : Building) :
    passFrom limit bytes within depth text p built =
      match Token.next? (within == some .record) text with
      | .error e => .error e
      | .ok none =>
        match within with
        | some kind => .error (.unterminatedGroup kind)
        | none => .ok (built, p, [])
      | .ok (some (token, rest)) =>
        match token.code with
        | .field f =>
          passFrom limit bytes within depth rest (f.read (token.count.getD 1) bytes p).2
            (built.add token.name (f.read (token.count.getD 1) bytes p).1)
        | .opening kind =>
          if token.count.getD 1 = 0 then .error (.zeroRepeat kind)
          else if limit ≤ depth then .error (.tooDeep limit)
          else do
            let (data, q, behind) ← bodyTimes (passBody limit bytes kind (depth + 1) rest)
              (token.count.getD 1 - 1) p
            passFrom limit bytes within depth behind q (built.add token.name data)
        | .closing =>
          if within.isSome then .ok (built, p, rest)
          else passFrom limit bytes within depth rest p built
        | .blank => passFrom limit bytes within depth rest p built := by
  rw [passFrom, passWithin]
  split
  · next e ht => simp only [ht, Except.map]
  · next ht => cases within <;> simp only [ht, Except.map]
  · next token rest ht =>
    simp only [ht]
    split
    · simp only [map_val_map_widen, passFrom]
    · next kind _ =>
      split
      · rfl
      · split
        · rfl
        · have hbody : passBody limit bytes kind (depth + 1) rest = fun q =>
              ((passWithin limit bytes (some kind) (depth + 1) rest q (.start (some kind))).map
                fun body => (body.1.1.close, body.1.2.1, (⟨body.1.2.2, body.2⟩ :
                  { behind : List Char // behind.length ≤ rest.length }))).map
                fun (datum, r, behind) => (datum, r, behind.1) := by
            funext q
            unfold passBody passFrom
            cases passWithin limit bytes (some kind) (depth + 1) rest q (.start (some kind)) <;> rfl
          rw [hbody, bodyTimes_map Subtype.val]
          generalize bodyTimes _ (token.count.getD 1 - 1) p = result
          cases result with
          | error e => rfl
          | ok done => exact map_val_map_widen _ _
    · split
      · rfl
      · rw [map_val_map_widen, passFrom]
    · simp only [map_val_map_widen, passFrom]

/-! ## The comparison -/

/-- Takes in several parts one after the other. -/
def Building.addAll (built : Building) (parts : List Part) : Building :=
  parts.foldl (fun built part => built.add part.name part.data) built

@[simp] theorem Building.addAll_nil (built : Building) : built.addAll [] = built := rfl

@[simp] theorem Building.addAll_cons (built : Building) (part : Part) (parts : List Part) :
    built.addAll (part :: parts) = (built.add part.name part.data).addAll parts := rfl

theorem Building.addAll_items (out : List Datum) (parts : List Part) :
    (Building.items out).addAll parts = .items (out ++ Part.flatten parts) := by
  induction parts generalizing out with
  | nil => simp [Part.flatten]
  | cons part parts ih =>
    rw [Building.addAll_cons, Building.add, ih]
    simp [Part.flatten]

/-- A record under construction takes in a part as the record of a layout does. -/
theorem Building.add_fields (record : Mapping Datum) (part : Part) :
    (Building.fields record).add part.name part.data = .fields (Part.store record part) := by
  obtain ⟨name, data⟩ := part
  match name, data with
  | none, _ => rfl
  | some _, [] => rfl
  | some _, [_] => rfl
  | some _, _ :: _ :: _ => rfl

theorem Building.addAll_fields (record : Mapping Datum) (parts : List Part) :
    (Building.fields record).addAll parts = .fields (parts.foldl Part.store record) := by
  induction parts generalizing record with
  | nil => rfl
  | cons part parts ih => rw [Building.addAll_cons, Building.add_fields, ih, List.foldl_cons]

/-- A finished group is the datum that its parts make. -/
theorem Building.close_addAll_start (kind : GroupKind) (parts : List Part) :
    ((Building.start (some kind)).addAll parts).close = kind.assemble parts := by
  cases kind with
  | array => simp [Building.start, Building.addAll_items, Building.close, GroupKind.assemble]
  | record =>
    simp [Building.start, Building.addAll_fields, Building.close, GroupKind.assemble, Part.record]

/-- A body that is refused is refused at its first repeat. -/
theorem bodyTimes_error {τ : Type} {once : Position → Except FormatError (Datum × Position × τ)}
    {e : FormatError} (h : ∀ q, once q = .error e) (n : Nat) (p : Position) :
    bodyTimes once n p = .error e := by
  cases n <;> simp [bodyTimes, h, bind, Except.bind]

/-- A body that leaves the same text from every position is a reading that is taken several
times. -/
theorem bodyTimes_ok {τ : Type} {once : Position → Except FormatError (Datum × Position × τ)}
    {reading : Position → Datum × Position} {left : τ}
    (h : ∀ q, once q = .ok ((reading q).1, (reading q).2, left)) (n : Nat) (p : Position) :
    bodyTimes once n p =
      .ok ((readTimes reading (n + 1) p).1, (readTimes reading (n + 1) p).2, left) := by
  induction n generalizing p with
  | zero => simp [bodyTimes, h, bind, Except.bind, readTimes_succ]
  | succ n ih =>
    rw [readTimes_succ]
    simp only [bodyTimes, h, ih, bind, Except.bind]

/-- One token of the text is one step of both sides: a pass adds to what is built the parts that the
layout of the text yields, and it is refused where the text is. -/
theorem passFrom_eq_parseFrom_run (limit : Nat) (bytes : Payload) (within : Option GroupKind)
    (depth : Nat) (text : List Char) (p : Position) (built : Building) :
    passFrom limit bytes within depth text p built =
      (Layout.parseFrom limit within depth text).map fun (layout, left) =>
        (built.addAll (layout.run bytes p).1, (layout.run bytes p).2, left) := by
  rw [passFrom_eq, Layout.parseFrom_eq]
  cases hn : Token.next? (within == some .record) text with
  | error e => rfl
  | ok next =>
    match next, hn with
    | none, _ => cases within <;> rfl
    | some (token, rest), hn =>
      have hr : rest.length < text.length := Token.length_of_next? hn
      dsimp only
      cases token.code with
      | field f =>
        dsimp only
        rw [passFrom_eq_parseFrom_run _ _ _ _ rest]
        cases Layout.parseFrom limit within depth rest <;> rfl
      | opening kind =>
        dsimp only
        split
        · rfl
        split
        · rfl
        have hbody (q : Position) : passBody limit bytes kind (depth + 1) rest q =
            (Layout.parseFrom limit (some kind) (depth + 1) rest).map fun (body, behind) =>
              ((body.readGroup bytes kind q).1, (body.readGroup bytes kind q).2, behind) := by
          rw [passBody, passFrom_eq_parseFrom_run _ _ _ _ rest]
          cases Layout.parseFrom limit (some kind) (depth + 1) rest with
          | error e => rfl
          | ok parsed => simp [Except.map, Building.close_addAll_start, Layout.readGroup]
        cases hp : Layout.parseFrom limit (some kind) (depth + 1) rest with
        | error e =>
          rw [hp] at hbody
          rw [bodyTimes_error hbody]
          rfl
        | ok parsed =>
          obtain ⟨body, behind⟩ := parsed
          have hb : behind.length ≤ rest.length := Layout.length_le_of_parseFrom hp
          rw [hp] at hbody
          rw [bodyTimes_ok hbody, Nat.sub_add_cancel (by omega)]
          simp only [bind, Except.bind]
          rw [passFrom_eq_parseFrom_run _ _ _ _ behind]
          cases Layout.parseFrom limit within depth behind <;> rfl
      | closing =>
        dsimp only
        split
        · rfl
        · rw [passFrom_eq_parseFrom_run _ _ _ _ rest]
      | blank =>
        dsimp only
        rw [passFrom_eq_parseFrom_run _ _ _ _ rest]
termination_by text.length

/-- Under the greatest limit on values no layout is refused for what it yields. -/
theorem ofText_greatest_values (depth : UInt64) (source : String) :
    Format.ofText ⟨depth, Limits.greatest.values⟩ source =
      (Layout.parse depth.toNat source.toList).map fun layout => ⟨source, layout⟩ := by
  unfold Format.ofText
  cases Layout.parse depth.toNat source.toList with
  | error e => rfl
  | ok layout =>
    have hyield : layout.yield ≤ Limits.greatest.values.toNat := layout.yield_le_greatest
    simp only [bind, Except.bind]
    rw [if_neg (by omega)]
    rfl

/-- A single pass over a text refuses exactly the texts that are no format, each for the very same
reason, and for all others it yields the data that the format decodes and ends where the run of its
layout ends. -/
theorem pass_eq_map_decode (depth : UInt64) (source : String) (bytes : Payload) (offset : Int) :
    pass depth.toNat bytes source.toList (Position.ofOffset offset) =
      (Format.ofText ⟨depth, Limits.greatest.values⟩ source).map fun format =>
        (format.decode bytes offset,
          (format.layout.run bytes (Position.ofOffset offset)).2) := by
  rw [ofText_greatest_values, pass, passFrom_eq_parseFrom_run, Layout.parse]
  cases Layout.parseFrom depth.toNat none 0 source.toList with
  | error e => rfl
  | ok parsed =>
    simp [Except.map, bind, Except.bind, Building.start, Building.addAll_items, Building.data,
      Format.decode, Layout.decode]

end BinaryLayout.SinglePass
