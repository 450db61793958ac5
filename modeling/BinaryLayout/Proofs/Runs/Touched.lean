import BinaryLayout.Format
import BinaryLayout.Proofs.Position
import BinaryLayout.Proofs.Runs.Visits
import Mathlib.Tactic.IntervalCases

/-!
# The bytes that a run looks at

A run depends only on the bytes that it touches.  Those are not known before it: where a field
stands may follow from texts that were read in front of it, and moves lead anywhere, also in front
of the payload and behind it.

There are three groups.

* Looks.  `Payload.at?` is the byte at an index, or nothing outside the payload.  Each of the three
  ways of looking at a payload gets a lemma that says which indices decide what is found:
  `take?_congr`, `window_congr` and `segment_congr`.
* Fields.  `Field.Covers` says which indices a field looks at, and `Field.read_congr` that no other
  one matters.
* Runs.  `Format.Touches` gathers what all visits of a run cover, and `decode_congr_of_touches` is
  what it comes to for a format.
-/

namespace BinaryLayout

/-! ## Looks -/

namespace Payload

/-- The byte at an index, if the payload holds one there. -/
def at? (bytes : Payload) (i : Int) : Option UInt8 := if 0 ≤ i then bytes[i.toNat]? else none

variable {bytes other : Payload} {p : Int}

@[simp] theorem at?_natCast (bytes : Payload) (i : Nat) : bytes.at? i = bytes[i]? := by
  rw [at?, if_pos (Int.natCast_nonneg i), Int.toNat_natCast]

theorem isSome_at? {i : Int} : (bytes.at? i).isSome ↔ 0 ≤ i ∧ i < bytes.size := by
  unfold at?
  split
  · simp only [isSome_getElem?]
    omega
  · simp only [Option.isSome_none, Bool.false_eq_true, false_iff]
    omega

/-- The bytes between two indices are decided by what stands there. -/
theorem extract_congr {start stop : Nat}
    (h : ∀ i : Nat, start ≤ i → i < stop → bytes[i]? = other[i]?) :
    bytes.extract start stop = other.extract start stop := by
  have hget (xs : Payload) (k : Nat) :
      (xs.extract start stop)[k]? = if start + k < stop then xs[start + k]? else none := by
    rw [Array.getElem?_extract]
    by_cases hstop : start + k < stop
    · rw [if_pos hstop]
      split
      · rfl
      · rw [Array.getElem?_eq_none]
        omega
    · rw [if_neg hstop, if_neg (by omega)]
  apply Array.ext_getElem?
  intro k
  rw [hget, hget]
  split
  · next hstop => exact h _ (Nat.le_add_right _ _) hstop
  · rfl

/-- To take some bytes is to look at each of them. -/
theorem take?_congr {n : Nat} (hn : 0 < n)
    (h : ∀ i, p ≤ i → i < p + n → bytes.at? i = other.at? i) :
    bytes.take? p n = other.take? p n := by
  -- whether all bytes are there is seen at the last one
  have hlast : (bytes.at? (p + n - 1)).isSome ↔ (other.at? (p + n - 1)).isSome := by
    rw [h (p + n - 1) (by omega) (by omega)]
  have hthere : (0 ≤ p ∧ p + n ≤ bytes.size) ↔ (0 ≤ p ∧ p + n ≤ other.size) := by
    rw [isSome_at?, isSome_at?] at hlast
    omega
  unfold take?
  by_cases hbytes : 0 ≤ p ∧ p + n ≤ bytes.size
  · rw [if_pos hbytes, if_pos (hthere.1 hbytes)]
    have hextract : bytes.extract p.toNat (p.toNat + n) = other.extract p.toNat (p.toNat + n) := by
      apply extract_congr
      intro i hstart hstop
      rw [← at?_natCast, ← at?_natCast]
      exact h i (by omega) (by omega)
    rw [hextract]
  · rw [if_neg hbytes, if_neg (mt hthere.2 hbytes)]

/-- A window shows nothing but the bytes it is opened on, even where the move over it stops
early. -/
theorem window_congr {n : Nat} (h : ∀ i, p ≤ i → i < p + n → bytes.at? i = other.at? i) :
    bytes.window p n = other.window p n := by
  have hextract : bytes.extract p.toNat (Position.advance p n).toNat =
      other.extract p.toNat (Position.advance p n).toNat := by
    apply extract_congr
    intro i hstart hstop
    have hlast : (i : Int) < p + n :=
      Position.lt_of_lt_advance (Int.natCast_nonneg i) (Int.lt_toNat.1 hstop)
    rw [← at?_natCast, ← at?_natCast]
    exact h i (by omega) hlast
  rw [window, window, hextract]

theorem le_zeroIndex (bytes : Payload) (i : Nat) : i ≤ zeroIndex bytes i := by
  fun_induction zeroIndex bytes i with
  | case1 => exact Nat.le_refl _
  | case2 _ _ _ ih => exact Nat.le_trans (Nat.le_succ _) ih
  | case3 => exact Nat.le_refl _

/-- The search for a zero byte passes over other bytes only. -/
theorem getElem?_of_lt_zeroIndex {i j : Nat} (hstart : i ≤ j) (hstop : j < zeroIndex bytes i) :
    ∃ b, bytes[j]? = some b ∧ b ≠ 0 := by
  fun_induction zeroIndex bytes i with
  | case1 => omega
  | case2 i hi hb ih =>
    rcases Nat.eq_or_lt_of_le hstart with rfl | hlt
    · exact ⟨bytes[i], Array.getElem?_eq_getElem hi, hb⟩
    · exact ih hlt hstop
  | case3 => omega

/-- From within the payload the search for a zero byte stays there. -/
theorem zeroIndex_le_size {i : Nat} (h : i ≤ bytes.size) : zeroIndex bytes i ≤ bytes.size := by
  by_contra hpast
  obtain ⟨b, hb, _⟩ := getElem?_of_lt_zeroIndex h (Nat.lt_of_not_le hpast)
  rw [Array.getElem?_eq_none (Nat.le_refl _)] at hb
  cases hb

/-- The search for a zero byte is decided by the bytes up to where it ends. -/
theorem zeroIndex_congr {i : Nat}
    (h : ∀ j, i ≤ j → j ≤ zeroIndex bytes i → bytes[j]? = other[j]?) :
    zeroIndex other i = zeroIndex bytes i := by
  fun_induction zeroIndex bytes i with
  | case1 i hi hb =>
    have hother := h i (Nat.le_refl _) (Nat.le_refl _)
    rw [Array.getElem?_eq_getElem hi, eq_comm, Array.getElem?_eq_some_iff] at hother
    obtain ⟨hlt, hget⟩ := hother
    rw [zeroIndex, dif_pos hlt, hget, if_pos hb]
  | case2 i hi hb ih =>
    have hother := h i (Nat.le_refl _) (Nat.le_trans (Nat.le_succ _) (le_zeroIndex _ _))
    rw [Array.getElem?_eq_getElem hi, eq_comm, Array.getElem?_eq_some_iff] at hother
    obtain ⟨hlt, hget⟩ := hother
    rw [zeroIndex, dif_pos hlt, hget, if_neg hb]
    exact ih fun j hstart hstop => h j (Nat.le_of_succ_le hstart) hstop
  | case3 i hi =>
    have hother := h i (Nat.le_refl _) (Nat.le_refl _)
    rw [Array.getElem?_eq_none (Nat.le_of_not_lt hi), eq_comm, Array.getElem?_eq_none_iff] at hother
    rw [zeroIndex, dif_neg (Nat.not_lt_of_le hother)]

/-- Whether a search for a zero byte from `p` on comes to the index `i`: all that stands in front of
it is there and not zero.  So the search covers the first zero byte, or the first index behind the
payload when there is no zero byte, and nothing in front of the payload. -/
def SearchCovers (bytes : Payload) (p i : Int) : Prop :=
  0 ≤ p ∧ p ≤ i ∧ ∀ j, p ≤ j → j < i → ∃ b, bytes.at? j = some b ∧ b ≠ 0

/-- In a payload whose size is a position no move over a segment stops early. -/
theorem segment_of_nonneg (hsize : (bytes.size : Int) ≤ Position.highest) (hp : 0 ≤ p) :
    bytes.segment p =
      ((bytes.extract p.toNat (zeroIndex bytes p.toNat)).toList,
        if zeroIndex bytes p.toNat < bytes.size then (zeroIndex bytes p.toNat : Int) + 1
        else (zeroIndex bytes p.toNat : Int)) := by
  have hle := le_zeroIndex bytes p.toNat
  unfold segment
  by_cases hinside : p ≤ bytes.size
  · have hstop : zeroIndex bytes p.toNat ≤ bytes.size := zeroIndex_le_size (by omega)
    rw [if_pos ⟨hp, hinside⟩]
    dsimp only
    congr 1
    by_cases hfound : zeroIndex bytes p.toNat < bytes.size
    · have hmove : p + (zeroIndex bytes p.toNat + 1 - p.toNat : Nat) =
          zeroIndex bytes p.toNat + 1 := by omega
      rw [if_pos hfound, if_pos hfound, Position.advance_of_nonneg hp (by omega), hmove]
    · have hmove : p + (zeroIndex bytes p.toNat - p.toNat : Nat) = zeroIndex bytes p.toNat := by
        omega
      rw [if_neg hfound, if_neg hfound, Position.advance_of_nonneg hp (by omega), hmove]
  · have hpast : zeroIndex bytes p.toNat = p.toNat := by
      rw [zeroIndex, dif_neg (by omega)]
    rw [if_neg (fun h => hinside h.2), hpast, if_neg (by omega), Int.toNat_of_nonneg hp]
    simp

/-- To read up to the next zero byte is to look at what the search for it covers. -/
theorem segment_congr (hbytes : (bytes.size : Int) ≤ Position.highest)
    (hother : (other.size : Int) ≤ Position.highest)
    (h : ∀ i, bytes.SearchCovers p i → bytes.at? i = other.at? i) :
    bytes.segment p = other.segment p := by
  by_cases hp : 0 ≤ p
  · have hagree (i : Nat) (hstart : p.toNat ≤ i) (hstop : i ≤ zeroIndex bytes p.toNat) :
        bytes[i]? = other[i]? := by
      rw [← at?_natCast, ← at?_natCast]
      refine h i ⟨hp, by omega, fun j hj hi => ?_⟩
      obtain ⟨k, rfl⟩ := Int.eq_ofNat_of_zero_le (Int.le_trans hp hj)
      rw [at?_natCast]
      exact getElem?_of_lt_zeroIndex (i := p.toNat) (by omega) (by omega)
    have hzero := zeroIndex_congr hagree
    have hextract : bytes.extract p.toNat (zeroIndex bytes p.toNat) =
        other.extract p.toNat (zeroIndex bytes p.toNat) :=
      extract_congr fun i hstart hstop => hagree i hstart (Nat.le_of_lt hstop)
    have hfound : zeroIndex bytes p.toNat < bytes.size ↔ zeroIndex bytes p.toNat < other.size := by
      have hlast : bytes[zeroIndex bytes p.toNat]?.isSome ↔
          other[zeroIndex bytes p.toNat]?.isSome := by
        rw [hagree _ (le_zeroIndex _ _) (Nat.le_refl _)]
      simpa only [isSome_getElem?] using hlast
    rw [segment_of_nonneg hbytes hp, segment_of_nonneg hother hp, hzero, hextract]
    simp only [hfound]
  · rw [segment, segment, if_neg (fun hin => hp hin.1), if_neg (fun hin => hp hin.1)]

end Payload

/-! ## Fields -/

theorem NumberField.width_mem (field : NumberField) : field.width ∈ [1, 2, 4, 8] := by
  cases field with
  | byte sign => exact List.mem_cons_self
  | word sign size order =>
    rw [width]
    cases size <;> decide
  | real precision order =>
    rw [width]
    cases precision <;> decide

theorem NumberField.width_pos (field : NumberField) : 0 < field.width := by
  have hwidths : ∀ width ∈ [1, 2, 4, 8], 0 < width := by decide
  exact hwidths _ field.width_mem

variable {bytes other : Payload}

theorem NumberField.read_congr (field : NumberField) {p : Int}
    (h : ∀ i, p ≤ i → i < p + field.width → bytes.at? i = other.at? i) :
    field.read bytes p = field.read other p := by
  rw [read, read, Payload.take?_congr field.width_pos h]

theorem readTerminated_congr (hbytes : (bytes.size : Int) ≤ Position.highest)
    (hother : (other.size : Int) ≤ Position.highest) {p : Int}
    (h : ∀ i, bytes.SearchCovers p i → bytes.at? i = other.at? i) :
    readTerminated bytes p = readTerminated other p := by
  rw [readTerminated, readTerminated, Payload.segment_congr hbytes hother h]

namespace Field

/-- Whether a field with its count looks at the index `i` when it is read at `p`: all indices of its
width for each number, all indices of its span for a text, and what the search for a zero byte
covers for each terminated text. -/
def Covers (bytes : Payload) (f : Field) (count : Nat) (p i : Int) : Prop :=
  match f with
  | .number field => ∃ q ∈ starts (field.read bytes) count p, q ≤ i ∧ i < q + field.width
  | .text field => p ≤ i ∧ i < p + field.span count
  | .terminated => ∃ q ∈ starts (readTerminated bytes) count p, bytes.SearchCovers q i
  | .move _ => False

/-- What a field reads is decided by what it looks at. -/
theorem read_congr (hbytes : (bytes.size : Int) ≤ Position.highest)
    (hother : (other.size : Int) ≤ Position.highest) {f : Field} {count : Nat} {p : Position}
    (h : ∀ i, f.Covers bytes count p i → bytes.at? i = other.at? i) :
    f.read count bytes p = f.read count other p := by
  cases f with
  | number field =>
    refine readTimes_congr fun q hq => ?_
    rw [starts_map (field.read bytes) Datum.number] at hq
    rw [field.read_congr fun i hstart hstop => h i ⟨q, hq, hstart, hstop⟩]
  | text field =>
    rw [read, read, TextField.read, TextField.read,
      Payload.window_congr fun i hstart hstop => h i ⟨hstart, hstop⟩]
  | terminated =>
    refine readTimes_congr fun q hq => ?_
    rw [starts_map (readTerminated bytes) Datum.text] at hq
    rw [readTerminated_congr hbytes hother fun i hcovers => h i ⟨q, hq, hcovers⟩]
  | move step => rfl

end Field

/-! ## Runs -/

namespace Format

/-- Whether a run over `bytes` from `offset` on looks at the index `i`. -/
def Touches (format : Format) (bytes : Payload) (offset : Int) (i : Int) : Prop :=
  ∃ visit ∈ format.layout.visits bytes.reader (Position.ofOffset offset),
    visit.field.Covers bytes visit.count visit.place i

/-- Two payloads that agree wherever the run over the first one looks give the same data, and the
run ends at the same position. -/
theorem decode_congr_of_touches (format : Format) (offset : Int)
    (hbytes : (bytes.size : Int) ≤ Position.highest)
    (hother : (other.size : Int) ≤ Position.highest)
    (h : ∀ i, format.Touches bytes offset i → bytes.at? i = other.at? i) :
    format.decode bytes offset = format.decode other offset ∧
      (format.layout.run bytes (Position.ofOffset offset)).2 =
        (format.layout.run other (Position.ofOffset offset)).2 := by
  have hrun : format.layout.run bytes (Position.ofOffset offset) =
      format.layout.run other (Position.ofOffset offset) := by
    rw [Layout.run_eq_runWith, Layout.run_eq_runWith]
    apply Layout.runWith_congr
    intro visit hvisit
    exact Field.read_congr hbytes hother fun i hcovers => h i ⟨visit, hvisit, hcovers⟩
  rw [decode, decode, Layout.decode, Layout.decode, hrun]
  exact ⟨rfl, rfl⟩

theorem ofText_gap :
    ofText {} "\x7bname:Z+ id:n\x7d x2 C" = .ok ⟨"\x7bname:Z+ id:n\x7d x2 C",
      .group none .record 1
        (.field (some "name") .terminated 1
          (.field (some "id") (.number (.word .unsigned .two .big)) 1 .done))
        (.field none (.move .forward) 2 (.field none (.number (.byte .unsigned)) 1 .done))⟩ := by
  decide +kernel

/-- A text, a number, two bytes that a move passes over and one more number: what stands in the gap
and behind the last number does not matter. -/
theorem decode_congr_of_gap :
    let bytes : Payload := #[0x61, 0, 1, 2, 9, 9, 7]
    let other : Payload := #[0x61, 0, 1, 2, 5, 6, 7, 8]
    ∃ format, ofText {} "\x7bname:Z+ id:n\x7d x2 C" = .ok format ∧
      (bytes.size : Int) ≤ Position.highest ∧ (other.size : Int) ≤ Position.highest ∧
      (∀ i, format.Touches bytes 0 i → bytes.at? i = other.at? i) ∧
      format.decode bytes 0 = format.decode other 0 ∧
      (format.layout.run bytes 0).2 = (format.layout.run other 0).2 := by
  intro bytes other
  refine ⟨_, ofText_gap, by decide, by decide, ?_⟩
  generalize hformat : Format.mk _ _ = format
  have hvisits : format.layout.visits bytes.reader 0 =
      [⟨.terminated, 1, 0⟩, ⟨.number (.word .unsigned .two .big), 1, 2⟩, ⟨.move .forward, 2, 4⟩,
        ⟨.number (.byte .unsigned), 1, 6⟩] := by
    subst hformat
    decide +kernel
  have hagree : ∀ i, format.Touches bytes 0 i → bytes.at? i = other.at? i := by
    rintro i ⟨visit, hvisit, hcovers⟩
    rw [show Position.ofOffset 0 = 0 from rfl, hvisits] at hvisit
    simp only [List.mem_cons, List.not_mem_nil, or_false] at hvisit
    rcases hvisit with rfl | rfl | rfl | rfl
    · obtain ⟨q, hq, hlow, hstart, hsearch⟩ := hcovers
      obtain rfl : q = 0 := List.mem_singleton.1 hq
      have hstop : i ≤ 1 := by
        by_contra hpast
        obtain ⟨b, hb, hne⟩ := hsearch 1 (by decide) (by omega)
        exact hne (Option.some.inj hb).symm
      interval_cases i <;> rfl
    · obtain ⟨q, hq, hstart, hstop⟩ := hcovers
      obtain rfl : q = 2 := List.mem_singleton.1 hq
      have hstop : i < 4 := hstop
      interval_cases i <;> rfl
    · exact hcovers.elim
    · obtain ⟨q, hq, hstart, hstop⟩ := hcovers
      obtain rfl : q = 6 := List.mem_singleton.1 hq
      have hstop : i < 7 := hstop
      interval_cases i
      rfl
  exact ⟨hagree, decode_congr_of_touches format 0 (by decide) (by decide) hagree⟩

end Format

end BinaryLayout
