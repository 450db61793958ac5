import BinaryLayout.Format
import BinaryLayout.Proofs.Runs.Touched

/-!
# Runs whose position is any integer

Positions are kept to a signed 64-bit word, and a move that would leave it stops early.  This module
reads formats with positions that are plain integers, where fields end behind what they cover and
moves go all the way, and compares the two.

There are three groups.

* Fields.  `Field.readIdeal` reads a field from any integer.  What it finds is said by indices:
  `Payload.between` is the bytes at the indices between two integers, as far as they exist.
* One field.  `Field.read_eq_readIdeal` says that a field is read in the same way if its amount fits
  in a position and the place behind it is a position.
* Runs.  `decode_eq_decodeIdeal` says that a format decodes the same if that is so of every field
  that the ideal run comes to.
-/

namespace BinaryLayout

/-! ## Fields -/

/-- The bytes at the indices from `start` on and in front of `stop`, those that exist. -/
def Payload.between (bytes : Payload) (start stop : Int) : List UInt8 :=
  bytes.toList.zipIdx.filterMap fun (b, i) => if start ≤ i ∧ i < stop then some b else none

/-- Reads a number from an index.  It needs all its bytes. -/
def NumberField.readIdeal (field : NumberField) (bytes : Payload) (p : Int) : Number × Int :=
  (if 0 ≤ p ∧ p + field.width ≤ bytes.size then
      field.ofBytes (bytes.between p (p + field.width))
    else .float .nan,
    p + field.width)

/-- Reads a text from an index, from those of its bytes that exist. -/
def TextField.readIdeal (field : TextField) (width : Nat) (bytes : Payload) (p : Int) :
    String × Int :=
  let stop := p + field.span width
  (String.ofList (field.ofBytes width (bytes.between p stop)), stop)

/-- Reads a text from an index up to the next zero byte or the end, and passes over a zero byte.
Outside the payload there is nothing to read or to pass. -/
def readTerminatedIdeal (bytes : Payload) (p : Int) : String × Int :=
  if 0 ≤ p ∧ p ≤ bytes.size then
    let rest := bytes.toList.drop p.toNat
    let found := rest.takeWhile (· != 0)
    (String.ofList (Utf8.decode found),
      p + found.length + if found.length < rest.length then 1 else 0)
  else
    ("", p)

/-- The index to which a move over `n` bytes leads. -/
def Move.applyIdeal : Move → Nat → Int → Int
  | .forward, n, p => p + n
  | .backward, n, p => p - n
  | .absolute, n, _ => n

/-- Reads a field with its count from an index: the data it yields, and the index behind it. -/
def Field.readIdeal (field : Field) (count : Nat) (bytes : Payload) (p : Int) : List Datum × Int :=
  match field with
  | .number field =>
    readTimes (fun q => (.number (field.readIdeal bytes q).1, (field.readIdeal bytes q).2)) count p
  | .text field =>
    ([.text (field.readIdeal count bytes p).1], (field.readIdeal count bytes p).2)
  | .terminated =>
    readTimes (fun q => (.text (readTerminatedIdeal bytes q).1, (readTerminatedIdeal bytes q).2))
      count p
  | .move step => ([], step.applyIdeal count p)

/-- Whether an amount that a position has to hold does fit in one: the width of a text, and the
distance of a move. -/
def Field.AmountFits : Field → Nat → Prop
  | .number _, _ => True
  | .text _, count => (count : Int) ≤ Position.highest
  | .terminated, _ => True
  | .move _, count => (count : Int) ≤ Position.highest

/-- Whether an integer is a position. -/
def Position.InRange (p : Int) : Prop := Position.lowest ≤ p ∧ p ≤ Position.highest

instance (p : Int) : Decidable (Position.InRange p) := inferInstanceAs (Decidable (_ ∧ _))

/-! ## One field -/

namespace Payload

variable (bytes : Payload)

theorem filterMap_zipIdx_eq (found : List UInt8) (start stop : Int) (k : Nat) :
    (found.zipIdx k).filterMap (fun (b, i) => if start ≤ i ∧ i < stop then some b else none) =
      (found.take (stop.toNat - k)).drop (start.toNat - k) := by
  induction found generalizing k with
  | nil => simp
  | cons b found ih =>
    rw [List.zipIdx_cons, List.filterMap_cons, ih (k + 1)]
    dsimp only
    by_cases hstop : (k : Int) < stop
    · obtain ⟨m, hm⟩ : ∃ m, stop.toNat - k = m + 1 := ⟨stop.toNat - k - 1, by omega⟩
      have hm' : stop.toNat - (k + 1) = m := by omega
      rw [hm, hm', List.take_succ_cons]
      by_cases hstart : start ≤ k
      · have h₀ : start.toNat - k = 0 := by omega
        have h₁ : start.toNat - (k + 1) = 0 := by omega
        rw [if_pos ⟨hstart, hstop⟩, h₀, h₁, List.drop_zero, List.drop_zero]
      · obtain ⟨n, hn⟩ : ∃ n, start.toNat - k = n + 1 := ⟨start.toNat - k - 1, by omega⟩
        have hn' : start.toNat - (k + 1) = n := by omega
        rw [if_neg (fun h => hstart h.1), hn, hn', List.drop_succ_cons]
    · have h₀ : stop.toNat - k = 0 := by omega
      have h₁ : stop.toNat - (k + 1) = 0 := by omega
      rw [if_neg (fun h => hstop h.2), h₀, h₁, List.take_zero, List.take_zero, List.drop_nil,
        List.drop_nil]

/-- The bytes between two indices, taken out as a piece. -/
theorem toList_extract_toNat (start stop : Int) :
    (bytes.extract start.toNat stop.toNat).toList = bytes.between start stop := by
  rw [between, filterMap_zipIdx_eq, Nat.sub_zero, Nat.sub_zero, List.drop_take,
    Array.toList_extract, List.extract_eq_take_drop]

/-- The piece up to the next zero byte. -/
theorem toList_extract_zeroIndex (i : Nat) :
    (bytes.extract i (zeroIndex bytes i)).toList = (bytes.toList.drop i).takeWhile (· != 0) := by
  rw [Array.toList_extract, List.extract_eq_take_drop]
  fun_induction zeroIndex bytes i with
  | case1 i hi hb =>
    rw [Nat.sub_self, List.take_zero, List.drop_eq_getElem_cons (by simpa using hi),
      List.takeWhile_cons_of_neg (by simpa using hb)]
  | case2 i hi hb ih =>
    have hle := le_zeroIndex bytes (i + 1)
    have hlength : zeroIndex bytes (i + 1) - i = zeroIndex bytes (i + 1) - (i + 1) + 1 := by omega
    rw [List.drop_eq_getElem_cons (by simpa using hi), hlength, List.take_succ_cons, ih,
      List.takeWhile_cons_of_pos (by simpa using hb)]
  | case3 i hi =>
    have hdrop : bytes.toList.drop i = [] := List.drop_eq_nil_of_le (by simpa using hi)
    rw [Nat.sub_self, List.take_zero, hdrop, List.takeWhile_nil]

end Payload

variable {bytes : Payload}

theorem NumberField.width_le_highest (field : NumberField) :
    (field.width : Int) ≤ Position.highest := by
  have hwidths : ∀ width ∈ [1, 2, 4, 8], (Nat.cast width : Int) ≤ Position.highest := by decide
  exact hwidths _ field.width_mem

theorem NumberField.read_eq_readIdeal (field : NumberField) {p : Int}
    (hstop : Position.InRange (field.readIdeal bytes p).2) :
    field.read bytes p = field.readIdeal bytes p := by
  have hmove : Position.advance p field.width = p + field.width :=
    Position.advance_eq field.width_le_highest hstop.1 hstop.2
  rw [read, readIdeal, hmove, Payload.take?]
  by_cases h : 0 ≤ p ∧ p + field.width ≤ bytes.size
  · have hend : p.toNat + field.width = (p + field.width).toNat := by omega
    rw [if_pos h, if_pos h, hend, Payload.toList_extract_toNat]
  · rw [if_neg h, if_neg h]
    rfl

theorem TextField.span_le (field : TextField) (width : Nat) : field.span width ≤ width := by
  cases field with
  | hex =>
    show (width + 1) / 2 ≤ width
    omega
  | _ => exact Nat.le_refl _

theorem TextField.read_eq_readIdeal (field : TextField) {width : Nat} {p : Int}
    (hwidth : (width : Int) ≤ Position.highest)
    (hstop : Position.InRange (field.readIdeal width bytes p).2) :
    field.read width bytes p = field.readIdeal width bytes p := by
  have hspan : (field.span width : Int) ≤ Position.highest :=
    Int.le_trans (Int.ofNat_le.2 (field.span_le width)) hwidth
  have hmove : Position.advance p (field.span width) = p + field.span width :=
    Position.advance_eq hspan hstop.1 hstop.2
  rw [read, readIdeal, hmove, Payload.window, hmove, Payload.toList_extract_toNat]

/-- Reading up to a zero byte never leaves the payload. -/
theorem readTerminated_eq_readTerminatedIdeal (hsize : (bytes.size : Int) ≤ Position.highest)
    (p : Int) : readTerminated bytes p = readTerminatedIdeal bytes p := by
  rw [readTerminated, readTerminatedIdeal]
  by_cases h : 0 ≤ p ∧ p ≤ bytes.size
  · have hle := Payload.le_zeroIndex bytes p.toNat
    have hinside : Payload.zeroIndex bytes p.toNat ≤ bytes.size :=
      Payload.zeroIndex_le_size (by omega)
    have hfound := Payload.toList_extract_zeroIndex bytes p.toNat
    have hlength := congrArg List.length hfound
    rw [Array.length_toList, Array.size_extract, Nat.min_eq_left hinside] at hlength
    rw [Payload.segment_of_nonneg hsize h.1, if_pos h, hfound]
    dsimp only
    rw [← hlength, List.length_drop, Array.length_toList]
    have hmove : p + (Payload.zeroIndex bytes p.toNat - p.toNat : Nat) =
        Payload.zeroIndex bytes p.toNat := by omega
    rw [hmove]
    by_cases hzero : Payload.zeroIndex bytes p.toNat < bytes.size
    · rw [if_pos hzero, if_pos (by omega)]
    · rw [if_neg hzero, if_neg (by omega), Int.add_zero]
  · rw [if_neg h, Payload.segment, if_neg h]
    rfl

namespace Field

/-- Where each reading ends no further back than it starts, all starts and ends lie between the
first start and the last end. -/
theorem starts_between {α : Type} {reading : Position → α × Position} {n : Nat} {p : Int}
    (h : ∀ q : Int, q ≤ (reading q).2) :
    p ≤ (readTimes reading n p).2 ∧
      ∀ q ∈ starts reading n p, p ≤ (reading q).2 ∧ (reading q).2 ≤ (readTimes reading n p).2 := by
  induction n generalizing p with
  | zero => exact ⟨Int.le_refl p, nofun⟩
  | succ n ih =>
    obtain ⟨hstop, hends⟩ := ih (p := (reading p).2)
    rw [readTimes_succ, starts, List.forall_mem_cons]
    refine ⟨Int.le_trans (h p) hstop, ⟨h p, hstop⟩, fun q hq => ?_⟩
    exact ⟨Int.le_trans (h p) (hends q hq).1, (hends q hq).2⟩

/-- A field is read as from any integer if its amount fits in a position, and the places in front of
it and behind it are positions. -/
theorem read_eq_readIdeal (hsize : (bytes.size : Int) ≤ Position.highest) {f : Field} {count : Nat}
    (hamount : f.AmountFits count) {p : Int} (hp : Position.lowest ≤ p)
    (hstop : Position.InRange (f.readIdeal count bytes p).2) :
    f.read count bytes p = f.readIdeal count bytes p := by
  cases f with
  | number field =>
    refine (readTimes_congr fun q hq => ?_).symm
    have hmono (q : Int) :
        q ≤ (Datum.number (field.readIdeal bytes q).1, (field.readIdeal bytes q).2).2 :=
      Int.le_add_of_nonneg_right (Int.natCast_nonneg _)
    obtain ⟨hfirst, hlast⟩ := (starts_between hmono).2 q hq
    have hinside : Position.InRange (field.readIdeal bytes q).2 :=
      ⟨Int.le_trans hp hfirst, Int.le_trans hlast hstop.2⟩
    rw [field.read_eq_readIdeal hinside]
  | text field =>
    rw [read, readIdeal, field.read_eq_readIdeal hamount hstop]
  | terminated =>
    refine readTimes_congr fun q _ => ?_
    rw [readTerminated_eq_readTerminatedIdeal hsize]
  | move step =>
    cases step with
    | forward => exact congrArg _ (Position.advance_eq hamount hstop.1 hstop.2)
    | backward => exact congrArg _ (Position.retreat_eq hamount hstop.1 hstop.2)
    | absolute => exact congrArg _ (Position.distance_eq hamount)

end Field

/-! ## Runs -/

/-- Reads fields from any integer. -/
def Payload.idealReader (bytes : Payload) : FieldReader :=
  fun f count p => f.readIdeal count bytes p

namespace Layout

/-- Whether the amounts that positions have to hold fit, at every depth. -/
def AmountsFit : Layout → Prop
  | .done => True
  | .field _ f count rest => f.AmountFits count ∧ rest.AmountsFit
  | .group _ _ _ body rest => body.AmountsFit ∧ rest.AmountsFit

/-- A run comes to no other amounts than those of its layout. -/
theorem amountFits_of_mem_visits {read : FieldReader} {layout : Layout} (h : layout.AmountsFit)
    (p : Position) : ∀ visit ∈ layout.visits read p, visit.field.AmountFits visit.count := by
  induction layout generalizing p with
  | done => exact nofun
  | field name f count rest ih =>
    rw [visits, List.forall_mem_cons]
    exact ⟨h.1, ih h.2 _⟩
  | group name kind count body rest ihBody ihRest =>
    rw [visits, List.forall_mem_append]
    refine ⟨fun visit hvisit => ?_, ihRest h.2 _⟩
    obtain ⟨q, _, hvisit⟩ := List.mem_flatMap.1 hvisit
    exact ihBody h.1 q visit hvisit

end Layout

namespace Format

/-- The data that `bytes` hold from `offset` on, with any integer for a position. -/
def decodeIdeal (format : Format) (bytes : Payload) (offset : Int) : List Datum :=
  Part.flatten (format.layout.runWith bytes.idealReader (max offset 0)).1

/-- A format whose amounts fit in positions decodes as it does with any integer for a position, and
ends at the same place, if the ideal run comes to no field that ends outside the positions. -/
theorem decode_eq_decodeIdeal (format : Format) (hamounts : format.layout.AmountsFit)
    (bytes : Payload) (hsize : (bytes.size : Int) ≤ Position.highest) (offset : Int)
    (hrange : ∀ visit ∈ format.layout.visits bytes.idealReader (max offset 0),
      Position.InRange (visit.read bytes.idealReader).2) :
    format.decode bytes offset = format.decodeIdeal bytes offset ∧
      (format.layout.run bytes (Position.ofOffset offset)).2 =
        (format.layout.runWith bytes.idealReader (max offset 0)).2 := by
  have hstart : Position.lowest ≤ max offset 0 :=
    Int.le_trans (Int.le_of_lt Position.lowest_lt_zero) (Int.le_max_right offset 0)
  -- a place is the start of the run or lies behind another field, so none is too low
  obtain ⟨hplaces, _⟩ := Layout.place_of_visits (fun p => Position.lowest ≤ p) hstart
    fun visit hvisit => (hrange visit hvisit).1
  have hrun : format.layout.runWith bytes.idealReader (max offset 0) =
      format.layout.run bytes (Position.ofOffset offset) := by
    rw [Layout.run_eq_runWith]
    apply Layout.runWith_congr
    intro visit hvisit
    exact (Field.read_eq_readIdeal hsize (Layout.amountFits_of_mem_visits hamounts _ visit hvisit)
      (hplaces visit hvisit) (hrange visit hvisit)).symm
  rw [decode, decodeIdeal, Layout.decode, hrun]
  exact ⟨rfl, rfl⟩

theorem ofText_outside :
    ofText {} "X3 C [2 s x5 X8] @1 Z+ a4 H9" = .ok ⟨"X3 C [2 s x5 X8] @1 Z+ a4 H9",
      .field none (.move .backward) 3 (.field none (.number (.byte .unsigned)) 1
        (.group none .array 2
          (.field none (.number (.word .signed .two .big)) 1
            (.field none (.move .forward) 5 (.field none (.move .backward) 8 .done)))
          (.field none (.move .absolute) 1 (.field none .terminated 1
            (.field none (.text .raw) 4 (.field none (.text (.hex .high)) 9 .done))))))⟩ := by
  decide +kernel

/-- A run that leaves the payload in front, comes back and leaves it behind. -/
theorem decode_outside_eq_decodeIdeal :
    let bytes : Payload := #[1, 2, 0x61, 0, 5]
    ∃ format, ofText {} "X3 C [2 s x5 X8] @1 Z+ a4 H9" = .ok format ∧
      format.layout.AmountsFit ∧ (bytes.size : Int) ≤ Position.highest ∧
      (∀ visit ∈ format.layout.visits bytes.idealReader (max 0 0),
        Position.InRange (visit.read bytes.idealReader).2) ∧
      format.decode bytes 0 = format.decodeIdeal bytes 0 ∧
      (format.layout.run bytes (Position.ofOffset 0)).2 =
        (format.layout.runWith bytes.idealReader (max 0 0)).2 := by
  intro bytes
  refine ⟨_, ofText_outside, ?_⟩
  generalize hformat : Format.mk _ _ = format
  have hamounts : format.layout.AmountsFit := by
    subst hformat
    simp only [Layout.AmountsFit, Field.AmountFits]
    decide
  have hrange : ∀ visit ∈ format.layout.visits bytes.idealReader (max 0 0),
      Position.InRange (visit.read bytes.idealReader).2 := by
    subst hformat
    decide +kernel
  exact ⟨hamounts, by decide, hrange,
    decode_eq_decodeIdeal format hamounts bytes (by decide) 0 hrange⟩

end Format

end BinaryLayout
