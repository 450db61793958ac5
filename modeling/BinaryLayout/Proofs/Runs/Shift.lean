import BinaryLayout.Proofs.Fields.Numbers
import BinaryLayout.Proofs.Layout.Closings
import BinaryLayout.Proofs.Layout.Writing

/-!
# Runs over the rest of a payload

A run that starts at an offset and never goes back does not look at what stands in front of the
offset.  So it reads what a run over the rest of the payload reads from its beginning.  The places
of the two differ by the offset until the run that is ahead comes to the last position; there it
stays, and behind the payload both read nothing but what is missing.

There are four groups.

* Two runs.  `Layout.runWith_related` carries a relation between places from one field to a whole
  run, if the fields of the layout keep it and give the same data.
* Places.  `Position.Ahead` is the relation, and moves forward keep it (`Ahead.advance`).
* Fields.  `Field.read_ahead` compares a field in the payload with the field in its rest.
* Formats.  `Format.decode_eq_decode_rest` is what it comes to, and `letter_mem_of_ofText` says
  that a move in a layout comes from its letter in the text.
-/

namespace BinaryLayout

/-! ## Two runs -/

/-- Two readings give the same, and the places behind them are related. -/
def SameUpTo {α : Type} (related : Position → Position → Prop) (a b : α × Position) : Prop :=
  a.1 = b.1 ∧ related a.2 b.2

theorem SameUpTo.map {α β : Type} {related : Position → Position → Prop} {a b : α × Position}
    (h : SameUpTo related a b) (f : α → β) : SameUpTo related (f a.1, a.2) (f b.1, b.2) :=
  ⟨congrArg f h.1, h.2⟩

section

variable {related : Position → Position → Prop} {p q : Position}

/-- Readings in a row keep what each of them keeps. -/
theorem readTimes_related {α : Type} {reading other : Position → α × Position}
    (hstep : ∀ p q, related p q → SameUpTo related (reading p) (other q)) (h : related p q)
    (n : Nat) : SameUpTo related (readTimes reading n p) (readTimes other n q) := by
  induction n generalizing p q with
  | zero => exact ⟨rfl, h⟩
  | succ n ih =>
    obtain ⟨hfirst, hbehind⟩ := hstep p q h
    obtain ⟨hothers, hlast⟩ := ih hbehind
    rw [readTimes_succ, readTimes_succ, hfirst, hothers]
    exact ⟨rfl, hlast⟩

namespace Layout

/-- The fields of a layout, at every depth. -/
def fields : Layout → List Field
  | .done => []
  | .field _ f _ rest => f :: rest.fields
  | .group _ _ _ body rest => body.fields ++ rest.fields

/-- A run keeps what each of its fields keeps. -/
theorem runWith_related {read other : FieldReader} {layout : Layout}
    (hstep : ∀ f ∈ layout.fields, ∀ count p q, related p q →
      SameUpTo related (read f count p) (other f count q))
    (h : related p q) : SameUpTo related (layout.runWith read p) (layout.runWith other q) := by
  induction layout generalizing p q with
  | done => exact ⟨rfl, h⟩
  | field name f count rest ih =>
    rw [fields, List.forall_mem_cons] at hstep
    obtain ⟨hdata, hbehind⟩ := hstep.1 count p q h
    obtain ⟨hparts, hlast⟩ := ih hstep.2 hbehind
    rw [runWith_field, runWith_field, hdata, hparts]
    exact ⟨rfl, hlast⟩
  | group name kind count body rest ihBody ihRest =>
    rw [fields, List.forall_mem_append] at hstep
    have hgroup (p q : Position) (h : related p q) :
        SameUpTo related (readGroupWith read kind body p) (readGroupWith other kind body q) :=
      (ihBody hstep.1 h).map kind.assemble
    obtain ⟨hdata, hbehind⟩ := readTimes_related hgroup h count
    obtain ⟨hparts, hlast⟩ := ihRest hstep.2 hbehind
    rw [runWith_group, runWith_group, hdata, hparts]
    exact ⟨rfl, hlast⟩

end Layout

end

/-! ## Places -/

namespace Position

/-- One place is `k` bytes ahead of another one in the payload or behind it, or it is the last
position and the other one is too far on. -/
def Ahead (k : Nat) (p q : Int) : Prop := 0 ≤ q ∧ p = min (q + k) highest

variable {k : Nat} {p q : Int}

theorem ahead_start (hk : (k : Int) ≤ highest) : Ahead k k 0 :=
  ⟨Int.le_refl 0, by omega⟩

/-- A move over the same distance keeps a place ahead, also where one of the two stops early. -/
theorem Ahead.advance (h : Ahead k p q) (n : Nat) : Ahead k (advance p n) (advance q n) := by
  obtain ⟨hq, rfl⟩ := h
  have hmoves (low high : Int) (hlow : low ≤ 0) (hhigh : 0 ≤ high) :
      0 ≤ max low (min (q + min (n : Int) high) high) ∧
        max low (min (min (q + k) high + min (n : Int) high) high) =
          min (max low (min (q + min (n : Int) high) high) + k) high := by
    omega
  exact hmoves lowest highest (by decide) (by decide)

end Position

/-! ## Fields -/

namespace Payload

/-- The payload without its first `k` bytes. -/
def rest (bytes : Payload) (k : Nat) : Payload := bytes.drop k

variable {bytes : Payload} {k : Nat} {p q : Int}

theorem toList_rest (bytes : Payload) (k : Nat) :
    (bytes.rest k).toList = bytes.toList.drop k := by
  rw [rest, Array.toList_extract, List.extract_eq_take_drop, List.take_of_length_le]
  rw [List.length_drop, Array.length_toList]

theorem size_rest (bytes : Payload) (k : Nat) : (bytes.rest k).size = bytes.size - k := by
  rw [rest, Array.size_extract]
  omega

/-- Pieces are the same if both of their ends stand at the same byte, or behind the payload. -/
theorem between_congr_of_min {start stop first last : Int}
    (hstart : min start.toNat bytes.size = min first.toNat bytes.size)
    (hstop : min stop.toNat bytes.size = min last.toNat bytes.size) :
    bytes.between start stop = bytes.between first last := by
  have htake : bytes.toList.take stop.toNat = bytes.toList.take last.toNat := by
    rwa [List.take_eq_take_iff, Array.length_toList]
  rw [between_eq_drop_take, between_eq_drop_take, htake, List.drop_eq_drop_iff, List.length_take,
    Array.length_toList]
  omega

/-- A piece of the rest is the piece that stands as much further on in the payload. -/
theorem between_rest {start stop : Int} (hstart : 0 ≤ start) (hstop : 0 ≤ stop) :
    (bytes.rest k).between start stop = bytes.between (start + k) (stop + k) := by
  have hfirst : (start + k).toNat = k + start.toNat := by omega
  have hlast : (stop + k).toNat = k + stop.toNat := by omega
  rw [between_eq_drop_take, between_eq_drop_take, toList_rest, hfirst, hlast, List.take_drop,
    List.drop_drop]

/-- Between two places that are ahead there are the bytes between the other two. -/
theorem between_ahead (hsize : (bytes.size : Int) ≤ Position.highest) {stop last : Int}
    (hstart : Position.Ahead k p q) (hstop : Position.Ahead k stop last) :
    bytes.between p stop = (bytes.rest k).between q last := by
  obtain ⟨hq, rfl⟩ := hstart
  obtain ⟨hlast, rfl⟩ := hstop
  rw [between_rest hq hlast]
  apply between_congr_of_min <;> omega

/-- Bytes that are taken ahead are the bytes of the rest, and are missing where these are missing. -/
theorem take?_ahead (hsize : (bytes.size : Int) ≤ Position.highest) {n : Nat} (hn : 0 < n)
    (h : Position.Ahead k p q) : bytes.take? p n = (bytes.rest k).take? q n := by
  obtain ⟨hq, hp⟩ := h
  have hrest := bytes.size_rest k
  by_cases hheld : 0 ≤ q ∧ q + n ≤ (bytes.rest k).size
  · have hplace : p = q + k := by omega
    have hstop : q + k + n = q + n + k := by omega
    rw [take?_eq_between hheld, between_rest hq (by omega), ← hstop, hplace]
    exact take?_eq_between (by omega)
  · have hmissing : ¬(0 ≤ p ∧ p + n ≤ bytes.size) := by omega
    rw [take?, take?, if_neg hmissing, if_neg hheld]

end Payload

variable {bytes : Payload} {k : Nat} {p q : Int}

theorem NumberField.read_ahead (field : NumberField)
    (hsize : (bytes.size : Int) ≤ Position.highest) (h : Position.Ahead k p q) :
    SameUpTo (Position.Ahead k) (field.read bytes p) (field.read (bytes.rest k) q) := by
  refine ⟨?_, h.advance field.width⟩
  rw [read, read, Payload.take?_ahead hsize field.width_pos h]

theorem TextField.read_ahead (field : TextField) (hsize : (bytes.size : Int) ≤ Position.highest)
    (h : Position.Ahead k p q) (width : Nat) :
    SameUpTo (Position.Ahead k) (field.read width bytes p) (field.read width (bytes.rest k) q) := by
  have hstop := h.advance (field.span width)
  refine ⟨?_, hstop⟩
  rw [read, read, Payload.window_eq_between, Payload.window_eq_between,
    Payload.between_ahead hsize h hstop]

/-- At the end of the payload and behind it a terminated text is empty. -/
theorem readTerminatedIdeal_of_le (hp : bytes.size ≤ p) :
    readTerminatedIdeal bytes p = ("", p) := by
  rw [readTerminatedIdeal]
  by_cases hend : 0 ≤ p ∧ p ≤ bytes.size
  · have hrest : bytes.toList.drop p.toNat = [] :=
      List.drop_eq_nil_of_le (by rw [Array.length_toList]; omega)
    rw [if_pos hend, hrest]
    exact congrArg (_, ·) (by simp)
  · rw [if_neg hend]

theorem readTerminated_ahead (hsize : (bytes.size : Int) ≤ Position.highest)
    (h : Position.Ahead k p q) :
    SameUpTo (Position.Ahead k) (readTerminated bytes p) (readTerminated (bytes.rest k) q) := by
  have hrest := bytes.size_rest k
  rw [readTerminated_eq_readTerminatedIdeal hsize,
    readTerminated_eq_readTerminatedIdeal (by omega)]
  by_cases hend : bytes.size ≤ p
  · have hother : (bytes.rest k).size ≤ q := by
      obtain ⟨hq, hp⟩ := h
      omega
    rw [readTerminatedIdeal_of_le hend, readTerminatedIdeal_of_le hother]
    exact ⟨rfl, h⟩
  · obtain ⟨hq, hp⟩ := h
    have hplace : p = q + k := by omega
    have hbytes : bytes.toList.drop p.toNat = (bytes.rest k).toList.drop q.toNat := by
      have hindex : p.toNat = k + q.toNat := by omega
      rw [Payload.toList_rest, List.drop_drop, hindex]
    have hlength : ((bytes.rest k).toList.drop q.toNat).length = bytes.size - k - q.toNat := by
      rw [List.length_drop, Array.length_toList, hrest]
    have hfound := (List.takeWhile_sublist (· != 0)
      (l := (bytes.rest k).toList.drop q.toNat)).length_le
    rw [readTerminatedIdeal, readTerminatedIdeal, if_pos (by omega), if_pos (by omega), hbytes]
    refine ⟨rfl, ?_⟩
    dsimp only
    split <;> exact ⟨by omega, by omega⟩

/-- A field that does not go back reads the same ahead in the payload as in its rest. -/
theorem Field.read_ahead (hsize : (bytes.size : Int) ≤ Position.highest) {f : Field}
    (hback : f ≠ .move .backward) (hplace : f ≠ .move .absolute) (count : Nat)
    (h : Position.Ahead k p q) :
    SameUpTo (Position.Ahead k) (f.read count bytes p) (f.read count (bytes.rest k) q) := by
  cases f with
  | number field =>
    exact readTimes_related
      (fun p q h => (field.read_ahead hsize h).map Datum.number) h count
  | text field => exact (field.read_ahead hsize h count).map fun s => [Datum.text s]
  | terminated =>
    exact readTimes_related (fun p q h => (readTerminated_ahead hsize h).map Datum.text) h count
  | move step =>
    cases step with
    | forward => exact ⟨rfl, h.advance count⟩
    | backward => exact absurd rfl hback
    | absolute => exact absurd rfl hplace

/-! ## Formats -/

/-- What stands for a move is its letter. -/
theorem Code.eq_letter_of_ofChar {c : Char} {step : Move} (h : ofChar c = .field (.move step)) :
    c = step.letter := by
  unfold ofChar at h
  split at h <;> cases h <;> rfl

/-- The letter of a move stands in the text that its token was read from. -/
theorem Token.letter_mem_of_next? {inRecord : Bool} {text rest : List Char} {token : Token}
    {step : Move} (h : next? inRecord text = .ok (some (token, rest)))
    (hcode : token.code = .field (.move step)) : step.letter ∈ text := by
  obtain ⟨_, behind, hread, _⟩ := read?_eq_some (read?_codeText h)
  apply (codeText_suffix inRecord text).subset
  rcases code?_cases hread with ⟨c, htext, hone⟩ | ⟨c, d, _, hpair⟩
  · rw [htext, Code.eq_letter_of_ofChar (hone.symm.trans hcode)]
    exact List.mem_cons_self
  · obtain ⟨_, _, ⟨field, hfield⟩ | hfield⟩ := Code.ofPair?_cases hpair
    · cases hcode.symm.trans hfield
    · cases hcode.symm.trans hfield

namespace Layout

/-- The letter of each move of a layout stands in the text of the layout. -/
theorem Reads.letter_mem {limit : Nat} {within : Option GroupKind} {depth : Nat}
    {text left : List Char} {layout : Layout} (h : Reads limit within depth text layout left)
    {step : Move} (hstep : .move step ∈ layout.fields) : step.letter ∈ text := by
  induction h with
  | ended | closed => cases hstep
  | field next code _ ih =>
    rcases List.mem_cons.1 hstep with rfl | hstep
    · exact Token.letter_mem_of_next? next code
    · exact (Token.suffix_of_next? next).subset (ih hstep)
  | group next _ _ _ inside _ ihBody ihTail =>
    apply (Token.suffix_of_next? next).subset
    rcases List.mem_append.1 hstep with hstep | hstep
    · exact ihBody hstep
    · exact inside.suffix.subset (ihTail hstep)
  | skipped next _ _ ih => exact (Token.suffix_of_next? next).subset (ih hstep)

end Layout

namespace Format

/-- The letter of each move of a format stands in its text. -/
theorem letter_mem_of_ofText {limits : Limits} {source : String} {format : Format}
    (h : ofText limits source = .ok format) {step : Move}
    (hstep : .move step ∈ format.layout.fields) : step.letter ∈ source.toList := by
  obtain ⟨hparse, _, _⟩ := ofText_eq_ok_iff.1 h
  obtain ⟨left, hreads⟩ := Layout.reads_of_parse hparse
  exact hreads.letter_mem hstep

/-- Whatever the format, an offset in front of the payload is the same as none.  A format that moves
neither back nor to a place counted from the start of the payload decodes from an offset what it
decodes from the payload without so many bytes, whatever its counts are, and it ends as many bytes
further on, or at the last position. -/
theorem decode_eq_decode_rest (format : Format) (bytes : Payload) :
    (∀ offset ≤ 0, format.decode bytes offset = format.decode bytes 0) ∧
      (.move .backward ∉ format.layout.fields → .move .absolute ∉ format.layout.fields →
        (bytes.size : Int) ≤ Position.highest → ∀ k ≤ bytes.size,
          format.decode bytes k = format.decode (bytes.rest k) 0 ∧
            (format.layout.run bytes k).2 =
              min ((format.layout.run (bytes.rest k) 0).2 + k) Position.highest) := by
  refine ⟨fun offset hoffset => ?_, fun hback habsolute hsize k hk => ?_⟩
  · have hstart : Position.ofOffset offset = Position.ofOffset 0 := Int.max_eq_right hoffset
    rw [decode, decode, Layout.decode, Layout.decode, hstart]
  · have hfields : ∀ f ∈ format.layout.fields, ∀ count p q, Position.Ahead k p q →
        SameUpTo (Position.Ahead k) (bytes.reader f count p)
          ((bytes.rest k).reader f count q) := by
      intro f hf count p q h
      exact Field.read_ahead hsize (fun he => hback (he ▸ hf)) (fun he => habsolute (he ▸ hf))
        count h
    have hstart : Position.Ahead k k 0 := Position.ahead_start (by omega)
    obtain ⟨hparts, _, hlast⟩ := Layout.runWith_related hfields hstart
    rw [← Layout.run_eq_runWith, ← Layout.run_eq_runWith] at hparts hlast
    refine ⟨?_, hlast⟩
    have hoffset : Position.ofOffset k = k := Int.max_eq_left (Int.natCast_nonneg k)
    rw [decode, decode, Layout.decode, Layout.decode, hoffset]
    exact congrArg Part.flatten hparts

/-- An array of two records with a move over the greatest count behind each of them. -/
theorem ofText_records_and_skip :
    ofText {} "Z+[2\x7ba:Cb:A3\x7dx18446744073709551615]C" =
      .ok ⟨"Z+[2\x7ba:Cb:A3\x7dx18446744073709551615]C",
        .field none .terminated 1
          (.group none .array 2
            (.group none .record 1
              (.field (some "a") (.number (.byte .unsigned)) 1
                (.field (some "b") (.text .blankPadded) 3 .done))
              (.field none (.move .forward) 18446744073709551615 .done))
            (.field none (.number (.byte .unsigned)) 1 .done))⟩ := by
  decide +kernel

/-- The second record and the last number are read from places that are the same in both runs,
though the first record is read from places that are two bytes apart. -/
theorem decode_rest_of_records_and_skip :
    let bytes : Payload := #[9, 9, 0x61, 0, 7, 0x62, 0x63]
    ∃ format, ofText {} "Z+[2\x7ba:Cb:A3\x7dx18446744073709551615]C" = .ok format ∧
      ((-3 : Int) ≤ 0 ∧ format.decode bytes (-3) = format.decode bytes 0) ∧
      .move .backward ∉ format.layout.fields ∧ .move .absolute ∉ format.layout.fields ∧
      (bytes.size : Int) ≤ Position.highest ∧ 2 ≤ bytes.size ∧
      format.decode bytes (2 : Nat) = format.decode (bytes.rest 2) 0 ∧
      (format.layout.run bytes (2 : Nat)).2 =
        min ((format.layout.run (bytes.rest 2) 0).2 + (2 : Nat)) Position.highest := by
  intro bytes
  obtain ⟨format, hformat⟩ : ∃ format,
      ofText {} "Z+[2\x7ba:Cb:A3\x7dx18446744073709551615]C" = .ok format :=
    ⟨_, ofText_records_and_skip⟩
  obtain ⟨hfront, hrest⟩ := decode_eq_decode_rest format bytes
  have hback : .move .backward ∉ format.layout.fields :=
    mt (letter_mem_of_ofText hformat) (by decide)
  have habsolute : .move .absolute ∉ format.layout.fields :=
    mt (letter_mem_of_ofText hformat) (by decide)
  exact ⟨format, hformat, ⟨by decide, hfront (-3) (by decide)⟩, hback, habsolute, by decide,
    by decide, hrest hback habsolute (by decide) 2 (by decide)⟩

end Format

end BinaryLayout
