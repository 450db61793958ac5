import BinaryLayout.Proofs.Runs.Ideal

/-!
# Where moves end

A move goes no further than `Position.highest` bytes, and it stops where the positions do.  The
amount is cut off before it is added, so a move over a greater amount can end inside the positions
although it was heading out of them.  This module says when a move ends at the position nearest to
the integer that it was heading for.

There are three groups.

* Moves.  `advance_eq_clamp_iff` and `retreat_eq_clamp_iff` compare a move with the move over
  integers.
* Windows.  `window_eq_between_iff` compares the bytes that a text field finds with the bytes at the
  indices that it covers.
* Reach.  `Format.Reaches` gathers the places that a run comes to, between repeats too.  They are
  all positions (`inRange_of_reaches`), so the comparison holds at each of them.
-/

namespace BinaryLayout

/-! ## Moves -/

namespace Position

variable {p : Int}

/-- An amount that is cut off before it is added leaves the sum short of both ends exactly if it is
cut off at all and is added to something negative. -/
theorem max_min_add_min_iff {low high amount : Int} (hlow : low ≤ p) (hhigh : p ≤ high)
    (hspan : low = -high - 1) :
    max low (min (p + min amount high) high) = max low (min (p + amount) high) ↔
      amount ≤ high ∨ 0 ≤ p := by
  omega

theorem max_min_sub_min_iff {low high amount : Int} (hlow : low ≤ p) (hhigh : p ≤ high)
    (hspan : low = -high - 1) :
    max low (min (p - min amount high) high) = max low (min (p - amount) high) ↔
      amount ≤ high ∨ p < 0 := by
  omega

/-- A move forward is short of its end exactly if its amount is no distance and it starts in front
of the payload. -/
theorem advance_eq_clamp_iff (hp : InRange p) (n : Nat) :
    advance p n = clamp (p + n) ↔ (n : Int) ≤ highest ∨ 0 ≤ p :=
  max_min_add_min_iff hp.1 hp.2 (by decide)

/-- A move over a distance ends where it was heading for, or at the last position. -/
theorem advance_eq_min (hp : InRange p) {n : Nat} (hn : (n : Int) ≤ highest) :
    advance p n = min (p + n) highest := by
  have hforth : lowest ≤ min (p + n) highest :=
    Int.le_min.2 ⟨Int.le_trans hp.1 (Int.le_add_of_nonneg_right (Int.natCast_nonneg n)), by decide⟩
  exact ((advance_eq_clamp_iff hp n).2 (.inl hn)).trans (Int.max_eq_right hforth)

/-- A move back is short of its end exactly if its amount is no distance and it does not start in
front of the payload. -/
theorem retreat_eq_clamp_iff (hp : InRange p) (n : Nat) :
    retreat p n = clamp (p - n) ↔ (n : Int) ≤ highest ∨ p < 0 :=
  max_min_sub_min_iff hp.1 hp.2 (by decide)

/-- From the start of the payload a move has all the room that an amount can ask for. -/
theorem ofStart_eq_clamp (n : Nat) : ofStart n = clamp n := by
  have hlow : lowest ≤ min (n : Int) highest :=
    Int.le_min.2 ⟨Int.le_trans (Int.le_of_lt lowest_lt_zero) (Int.natCast_nonneg n), by decide⟩
  exact (Int.max_eq_right hlow).symm

theorem inRange_clamp (p : Int) : InRange (clamp p) := by
  have hends : lowest ≤ highest := by decide
  exact ⟨Int.le_max_left _ _, Int.max_le.2 ⟨hends, Int.min_le_right _ _⟩⟩

/-- A move leads to a position. -/
theorem inRange_apply (step : Move) (n : Nat) (p : Position) : InRange (step.apply n p) := by
  cases step with
  | forward => exact inRange_clamp _
  | backward => exact inRange_clamp _
  | absolute =>
    show InRange (ofStart n)
    rw [ofStart_eq_clamp]
    exact inRange_clamp _

end Position

/-! ## Windows -/

namespace Payload

variable (bytes : Payload)

/-- The bytes between two indices, of which those in front of the second one are counted first. -/
theorem between_eq_drop_take (start stop : Int) :
    bytes.between start stop = (bytes.toList.take stop.toNat).drop start.toNat := by
  rw [between, filterMap_zipIdx_eq, Nat.sub_zero, Nat.sub_zero]

theorem length_between_le (p : Int) (n : Nat) : (bytes.between p (p + n)).length ≤ n := by
  rw [between_eq_drop_take, List.length_drop, List.length_take]
  omega

/-- A window shows the bytes up to where the move over it ends. -/
theorem window_eq_between (p : Position) (n : Nat) :
    bytes.window p n = bytes.between p (p.advance n) :=
  toList_extract_toNat bytes p (p.advance n)

/-- Pieces that end at the same byte of the payload, or both behind it, are the same. -/
theorem between_congr {start stop other : Int}
    (h : min bytes.size stop.toNat = min bytes.size other.toNat) :
    bytes.between start stop = bytes.between start other := by
  have htake : bytes.toList.take stop.toNat = bytes.toList.take other.toNat := by
    rw [List.take_eq_take_iff, Array.length_toList]
    omega
  rw [between_eq_drop_take, between_eq_drop_take, htake]

/-- Of two pieces from in front of the payload the shorter one is all of the other exactly if no
byte of the other lies behind it. -/
theorem between_eq_between_iff {start stop other : Int} (hstart : start ≤ 0) (hle : stop ≤ other) :
    bytes.between start stop = bytes.between start other ↔
      min (bytes.size : Int) other ≤ max 0 stop := by
  constructor
  · intro h
    have hzero : start.toNat = 0 := by omega
    rw [between_eq_drop_take, between_eq_drop_take, hzero, List.drop_zero, List.drop_zero] at h
    have hlength := congrArg List.length h
    simp only [List.length_take, Array.length_toList] at hlength
    omega
  · intro h
    apply between_congr
    omega

/-- A window shows all the bytes that it covers, except where its amount is no distance, it starts
in front of the payload, and it covers a byte behind the end of the move. -/
theorem window_eq_between_iff {p : Int} (hsize : (bytes.size : Int) ≤ Position.highest)
    (hp : Position.InRange p) (n : Nat) :
    bytes.window p n = bytes.between p (p + n) ↔
      (n : Int) ≤ Position.highest ∨ 0 ≤ p ∨
        min (bytes.size : Int) (p + n) ≤ max 0 (p + Position.highest) := by
  rw [window_eq_between]
  by_cases hroom : (n : Int) ≤ Position.highest ∨ 0 ≤ p
  · -- the move ends where it was heading for, or at the last position, which is behind all bytes
    rw [(Position.advance_eq_clamp_iff hp n).2 hroom]
    refine iff_of_true (bytes.between_congr ?_) (by omega)
    obtain ⟨hlow, _⟩ := hp
    by_cases hstop : p + n ≤ Position.highest
    · have hforth : p ≤ p + n := Int.le_add_of_nonneg_right (Int.natCast_nonneg n)
      rw [Position.clamp_eq (Int.le_trans hlow hforth) hstop]
    · have hlast : Position.clamp (p + n) = Position.highest := by
        rw [Position.clamp, Int.min_eq_right (by omega)]
        exact Int.max_eq_right (by decide)
      rw [hlast]
      omega
  · obtain ⟨hfar, hfront⟩ := not_or.1 hroom
    have hmove : Position.advance p n = p + Position.highest := by
      obtain ⟨hlow, _⟩ := hp
      have hdistance : Position.distance n = Position.highest := Int.min_eq_right (by omega)
      have hforth : p ≤ p + Position.highest := Int.le_add_of_nonneg_right (by decide)
      have hstop : p + Position.highest ≤ Position.highest := by omega
      rw [Position.advance, hdistance, Position.clamp_eq (Int.le_trans hlow hforth) hstop]
    rw [hmove, bytes.between_eq_between_iff (by omega) (by omega)]
    omega

end Payload

/-! ## Reach -/

/-- The places at which the repeats of a field start, where it has repeats. -/
def Visit.repeats (visit : Visit) (bytes : Payload) : List Position :=
  match visit.field with
  | .number field => starts (field.read bytes) visit.count visit.place
  | .terminated => starts (readTerminated bytes) visit.count visit.place
  | .text _ | .move _ => []

/-- What is in range in front of a reading is in range behind it. -/
theorem NumberField.inRange_read (field : NumberField) (bytes : Payload) (p : Position) :
    Position.InRange (field.read bytes p).2 := Position.inRange_clamp _

theorem inRange_readTerminated {bytes : Payload} {p : Position} (hp : Position.InRange p) :
    Position.InRange (readTerminated bytes p).2 := by
  show Position.InRange (bytes.segment p).2
  unfold Payload.segment
  split
  · exact Position.inRange_clamp _
  · exact hp

/-- All repeats of a visit in range start in range, and so does what stands behind it. -/
theorem Visit.inRange_repeats {visit : Visit} {bytes : Payload}
    (hplace : Position.InRange visit.place) :
    (∀ p ∈ visit.repeats bytes, Position.InRange p) ∧
      Position.InRange (visit.read bytes.reader).2 := by
  obtain ⟨field, count, place⟩ := visit
  cases field with
  | number field =>
    have hstep : ∀ q ∈ starts (field.read bytes) count place,
        Position.InRange q → Position.InRange (field.read bytes q).2 :=
      fun q _ _ => field.inRange_read bytes q
    obtain ⟨hstarts, hstop⟩ := place_of_starts Position.InRange hplace hstep
    refine ⟨hstarts, ?_⟩
    have hread : (Visit.read ⟨.number field, count, place⟩ bytes.reader).2 =
        (readTimes (field.read bytes) count place).2 :=
      congrArg Prod.snd (readTimes_map (field.read bytes) Datum.number count place)
    rw [hread]
    exact hstop
  | text field => exact ⟨nofun, Position.inRange_clamp _⟩
  | terminated =>
    have hstep : ∀ q ∈ starts (readTerminated bytes) count place,
        Position.InRange q → Position.InRange (readTerminated bytes q).2 :=
      fun q _ hq => inRange_readTerminated hq
    obtain ⟨hstarts, hstop⟩ := place_of_starts Position.InRange hplace hstep
    refine ⟨hstarts, ?_⟩
    have hread : (Visit.read ⟨.terminated, count, place⟩ bytes.reader).2 =
        (readTimes (readTerminated bytes) count place).2 :=
      congrArg Prod.snd (readTimes_map (readTerminated bytes) Datum.text count place)
    rw [hread]
    exact hstop
  | move step => exact ⟨nofun, Position.inRange_apply step count place⟩

namespace Format

/-- A run from `offset` on comes to this place: a field or a repeat of one starts there, or the run
ends there. -/
def Reaches (format : Format) (bytes : Payload) (offset : Int) (p : Position) : Prop :=
  (∃ visit ∈ format.layout.visits bytes.reader (Position.ofOffset offset),
    p = visit.place ∨ p ∈ visit.repeats bytes) ∨
  p = (format.layout.run bytes (Position.ofOffset offset)).2

/-- A run comes to positions only. -/
theorem inRange_of_reaches {format : Format} {bytes : Payload} {offset : Int} {p : Position}
    (hoffset : offset ≤ Position.highest) (h : format.Reaches bytes offset p) :
    Position.InRange p := by
  have hstart : Position.InRange (Position.ofOffset offset) :=
    ⟨Int.le_trans (Int.le_of_lt Position.lowest_lt_zero) (Int.le_max_right offset 0),
      Int.max_le.2 ⟨hoffset, by decide⟩⟩
  have hstep : ∀ visit ∈ format.layout.visits bytes.reader (Position.ofOffset offset),
      Position.InRange visit.place → Position.InRange (visit.read bytes.reader).2 :=
    fun visit _ hplace => (Visit.inRange_repeats hplace).2
  obtain ⟨hplaces, hstop⟩ := Layout.place_of_visits_of_step Position.InRange hstart hstep
  rcases h with ⟨visit, hvisit, rfl | hrepeat⟩ | rfl
  · exact hplaces visit hvisit
  · exact (Visit.inRange_repeats (hplaces visit hvisit)).1 p hrepeat
  · rw [Layout.run_eq_runWith]
    exact hstop

/-- At every place that a run comes to, a move over an amount that is a distance ends at the
position nearest to where it is heading, and a text of such a width finds the bytes that it covers.
Over a greater amount that is so of a move forward exactly if it does not start in front of the
payload, of a move back exactly if it does, and of every move that is counted from the start of the
payload.  A text in front of the payload finds all its bytes exactly if it covers none behind the
end of its move. -/
theorem moves_of_reaches {format : Format} {bytes : Payload}
    (hsize : (bytes.size : Int) ≤ Position.highest) {offset : Int}
    (hoffset : offset ≤ Position.highest) {p : Int} (hreaches : format.Reaches bytes offset p)
    (n : Nat) :
    (Position.advance p n = Position.clamp (p + n) ↔ (n : Int) ≤ Position.highest ∨ 0 ≤ p) ∧
      (Position.retreat p n = Position.clamp (p - n) ↔ (n : Int) ≤ Position.highest ∨ p < 0) ∧
      Position.ofStart n = Position.clamp n ∧
      (bytes.window p n = bytes.between p (p + n) ↔
        (n : Int) ≤ Position.highest ∨ 0 ≤ p ∨
          min (bytes.size : Int) (p + n) ≤ max 0 (p + Position.highest)) := by
  have hp := inRange_of_reaches hoffset hreaches
  exact ⟨Position.advance_eq_clamp_iff hp n, Position.retreat_eq_clamp_iff hp n,
    Position.ofStart_eq_clamp n, bytes.window_eq_between_iff hsize hp n⟩

/-- Five bytes back, as far forward as a count goes, and back again to what is then a byte. -/
theorem ofText_far :
    ofText {} "X5x18446744073709551615X9223372036854775800C" =
      .ok ⟨"X5x18446744073709551615X9223372036854775800C",
        .field none (.move .backward) 5
          (.field none (.move .forward) 18446744073709551615
            (.field none (.move .backward) 9223372036854775800
              (.field none (.number (.byte .unsigned)) 1 .done)))⟩ := by
  decide +kernel

/-- A run of it comes to a place in front of the payload. -/
theorem exists_reaches_far :
    ∃ format, ofText {} "X5x18446744073709551615X9223372036854775800C" = .ok format ∧
      format.Reaches #[0, 1, 2, 3, 4, 5, 6, 7] 0 (-5) := by
  refine ⟨_, ofText_far, .inl ⟨⟨.move .forward, 18446744073709551615, -5⟩, ?_, .inl rfl⟩⟩
  decide +kernel

/-- From five bytes in front of the payload a move over the greatest count ends five bytes in front
of the last position, a move back ends where it should, and a text finds all bytes. -/
theorem moves_of_reaches_far :
    ∃ format, ofText {} "X5x18446744073709551615X9223372036854775800C" = .ok format ∧
      (8 : Int) ≤ Position.highest ∧ (0 : Int) ≤ Position.highest ∧
      format.Reaches #[0, 1, 2, 3, 4, 5, 6, 7] 0 (-5) ∧
      Position.advance (-5) 18446744073709551615 ≠
        Position.clamp (-5 + (18446744073709551615 : Nat)) ∧
      Position.retreat (-5) 18446744073709551615 =
        Position.clamp (-5 - (18446744073709551615 : Nat)) ∧
      Payload.window #[0, 1, 2, 3, 4, 5, 6, 7] (-5) 18446744073709551615 =
        Payload.between #[0, 1, 2, 3, 4, 5, 6, 7] (-5) (-5 + (18446744073709551615 : Nat)) := by
  obtain ⟨format, hformat, hreaches⟩ := exists_reaches_far
  obtain ⟨hforth, hback, _, hwindow⟩ :=
    moves_of_reaches (by decide) (by decide) hreaches 18446744073709551615
  exact ⟨format, hformat, by decide, by decide, hreaches, mt hforth.1 (by decide),
    hback.2 (by decide), hwindow.2 (by decide)⟩

/-- Not every move ends at the position nearest to where it is heading. -/
theorem not_moves_to_nearest :
    ¬ ∀ (limits : Limits) (source : String) (format : Format) (bytes : Payload) (offset p : Int)
        (n : Nat),
      ofText limits source = .ok format → (bytes.size : Int) ≤ Position.highest →
      Position.InRange offset → format.Reaches bytes offset p → n ≤ Count.greatest →
        Position.advance p n = Position.clamp (p + n) ∧
        Position.retreat p n = Position.clamp (p - n) ∧
        Position.ofStart n = Position.clamp n ∧
        bytes.window p n = bytes.between p (p + n) := by
  intro hnearest
  obtain ⟨format, hformat, hreaches⟩ := exists_reaches_far
  obtain ⟨hforth, _⟩ := hnearest {} _ format _ 0 (-5) 18446744073709551615 hformat (by decide)
    (by decide) hreaches (by decide)
  exact absurd hforth (by decide)

end Format

end BinaryLayout
