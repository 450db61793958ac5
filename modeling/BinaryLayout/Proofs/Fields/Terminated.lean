import BinaryLayout.Proofs.Runs.Saturation
import Mathlib.Data.List.TakeWhile

/-!
# What terminated texts read

A terminated text ends at the next zero byte, which it passes over, or at the end of the payload.
So texts in a row take what is left of the payload apart at its zero bytes, and when nothing is left
they are empty and stay where they are.

There are three groups.

* Pieces.  `Payload.pieces` splits what stands from a place on at its zero bytes, and
  `Payload.behind` is the place behind some of the pieces.
* One text.  `readTerminated_cases` has the two ways in which a text ends.  Either way it is the
  first piece, and the other pieces are left (`piece_succ`, `behind_succ`, `taken_succ`).
* Texts in a row.  By induction over their number, `readTimes_readTerminated` says what they are and
  where they end, and `getElem?_starts_readTerminated` and `between_behind` which bytes each of them
  takes.  `Field.read_terminated` puts them together for a field.
-/

namespace BinaryLayout

/-! ## Pieces -/

namespace Payload

/-- What stands from `p` on, split at its zero bytes.  There is a piece behind each of them, perhaps
empty, so the last piece is the only one without a zero byte behind it. -/
def pieces (bytes : Payload) (p : Position) : List (List UInt8) :=
  (bytes.toList.drop p.toNat).splitOn 0

/-- The piece with this index, or nothing when there are not so many. -/
def piece (bytes : Payload) (p : Position) (i : Nat) : List UInt8 := (bytes.pieces p).getD i []

/-- The place behind the first `n` pieces and the zero byte behind each of them, or the end of the
payload when one of them has none. -/
def behind (bytes : Payload) (p : Position) (n : Nat) : Position :=
  if n < (bytes.pieces p).length then p + (((bytes.pieces p).take n).flatMap (· ++ [0])).length
  else bytes.size

/-- What a text with this index takes: its piece, and the zero byte behind the piece if there is
one. -/
def taken (bytes : Payload) (p : Position) (i : Nat) : List UInt8 :=
  bytes.piece p i ++ if i + 1 < (bytes.pieces p).length then [0] else []

theorem behind_zero (bytes : Payload) (p : Position) : bytes.behind p 0 = p := by
  have hpieces : 0 < (bytes.pieces p).length := List.length_pos_iff.2 (List.splitOn_ne_nil 0 _)
  rw [behind, if_pos hpieces]
  exact Int.add_zero p

/-- At the end of the payload an empty piece is left. -/
theorem pieces_size (bytes : Payload) : bytes.pieces bytes.size = [[]] := by
  have hrest : bytes.toList.drop (bytes.size : Int).toNat = [] :=
    List.drop_eq_nil_of_le (by simp)
  rw [pieces, hrest, List.splitOn_nil]

end Payload

/-! ## One text -/

/-- The text that a piece is read as; bytes that are no characters are replaced. -/
def Utf8.text (piece : List UInt8) : String := String.ofList (Utf8.decode piece)

variable {bytes : Payload} {p : Int}

/-- A text in the payload is the first piece.  It ends behind a zero byte, and then the other pieces
are left, or it is the only piece and ends with the payload. -/
theorem readTerminated_cases (hsize : (bytes.size : Int) ≤ Position.highest)
    (hp : 0 ≤ p ∧ p ≤ bytes.size) :
    ∃ found,
      (∃ q : Int, readTerminated bytes p = (Utf8.text found, q) ∧ q = p + (found ++ [0]).length ∧
        q ≤ bytes.size ∧ bytes.pieces p = found :: bytes.pieces q ∧
        bytes.between p q = found ++ [0]) ∨
      readTerminated bytes p = (Utf8.text found, (bytes.size : Int)) ∧ bytes.pieces p = [found] ∧
        bytes.between p bytes.size = found := by
  rw [readTerminated_eq_readTerminatedIdeal hsize, readTerminatedIdeal, if_pos hp]
  have hlength : (bytes.toList.drop p.toNat).length = bytes.size - p.toNat := by
    rw [List.length_drop, Array.length_toList]
  have hbetween (q : Int) :
      bytes.between p q = (bytes.toList.drop p.toNat).take (q.toNat - p.toNat) := by
    rw [Payload.between_eq_drop_take, List.drop_take]
  have hpass {found : List UInt8} (hfound : 0 ∉ found) : ∀ b ∈ found, (b != 0) = true := by
    intro b hb
    simp only [bne_iff_ne]
    rintro rfl
    exact hfound hb
  rw [Payload.pieces]
  generalize hrest : bytes.toList.drop p.toNat = rest at hlength hbetween
  by_cases hzero : 0 ∈ rest
  · obtain ⟨found, later, rfl, hfound⟩ := List.eq_append_cons_of_mem hzero
    have htake : (found ++ 0 :: later).takeWhile (· != 0) = found := by
      rw [List.takeWhile_append_of_pos (hpass hfound), List.takeWhile_cons_of_neg (by decide),
        List.append_nil]
    have hlonger : found.length < (found ++ 0 :: later).length := by simp
    have hroom : found.length + 1 ≤ bytes.size - p.toNat := by
      rw [← hlength]
      exact hlonger
    have hbehind : (p + (found ++ [0]).length).toNat = p.toNat + (found.length + 1) := by
      rw [List.length_append, List.length_singleton]
      omega
    have hlater : bytes.toList.drop (p + (found ++ [0]).length).toNat = later := by
      rw [hbehind, ← List.drop_drop, hrest, List.drop_length_add_append]
      rfl
    refine ⟨found, .inl ⟨p + (found ++ [0]).length, ?_, rfl, ?_, ?_, ?_⟩⟩
    · dsimp only
      rw [htake, if_pos hlonger, List.length_append, Utf8.text]
      simp [Int.add_assoc]
    · rw [List.length_append, List.length_singleton]
      omega
    · rw [Payload.pieces, hlater, List.splitOn_append_cons_self_of_not_mem hfound]
    · rw [hbetween, hbehind, Nat.add_sub_cancel_left, List.take_length_add_append]
      rfl
  · have htake : rest.takeWhile (· != 0) = rest := List.takeWhile_eq_self_iff.2 (hpass hzero)
    refine ⟨rest, .inr ⟨?_, List.splitOn_eq_singleton hzero, ?_⟩⟩
    · dsimp only
      rw [htake, if_neg (Nat.lt_irrefl _), hlength, Utf8.text, Int.add_zero]
      congr 1
      omega
    · rw [hbetween, List.take_of_length_le]
      omega

/-- A text is the first piece. -/
theorem fst_readTerminated (hsize : (bytes.size : Int) ≤ Position.highest)
    (hp : 0 ≤ p ∧ p ≤ bytes.size) :
    (readTerminated bytes p).1 = Utf8.text (bytes.piece p 0) := by
  rcases readTerminated_cases hsize hp with
    ⟨found, ⟨q, hread, _, _, hpieces, _⟩ | ⟨hread, hpieces, _⟩⟩
  all_goals
    rw [hread, Payload.piece, hpieces]
    rfl

/-- A text in the payload ends in it, no further back than it starts. -/
theorem inside_readTerminated (hsize : (bytes.size : Int) ≤ Position.highest)
    (hp : 0 ≤ p ∧ p ≤ bytes.size) :
    p ≤ (readTerminated bytes p).2 ∧ (readTerminated bytes p).2 ≤ bytes.size := by
  rcases readTerminated_cases hsize hp with ⟨found, ⟨q, hread, hq, hinside, _⟩ | ⟨hread, _⟩⟩
  · rw [hread]
    exact ⟨by omega, hinside⟩
  · rw [hread]
    exact ⟨hp.2, Int.le_refl _⟩

namespace Payload

/-- The pieces behind the first one are those that a text leaves. -/
theorem piece_succ (hsize : (bytes.size : Int) ≤ Position.highest) (hp : 0 ≤ p ∧ p ≤ bytes.size)
    (i : Nat) : bytes.piece p (i + 1) = bytes.piece (readTerminated bytes p).2 i := by
  rcases readTerminated_cases hsize hp with
    ⟨found, ⟨q, hread, _, _, hpieces, _⟩ | ⟨hread, hpieces, _⟩⟩
  · rw [hread, piece, hpieces]
    rfl
  · rw [hread, piece, hpieces, piece, pieces_size]
    cases i <;> rfl

theorem taken_succ (hsize : (bytes.size : Int) ≤ Position.highest) (hp : 0 ≤ p ∧ p ≤ bytes.size)
    (i : Nat) : bytes.taken p (i + 1) = bytes.taken (readTerminated bytes p).2 i := by
  rw [taken, taken, piece_succ hsize hp]
  rcases readTerminated_cases hsize hp with
    ⟨found, ⟨q, hread, _, _, hpieces, _⟩ | ⟨hread, hpieces, _⟩⟩
  · rw [hread, hpieces, List.length_cons]
    simp only [Nat.add_lt_add_iff_right]
  · rw [hread, hpieces, pieces_size, List.length_singleton, List.length_singleton,
      if_neg (by omega), if_neg (by omega)]

/-- The first text takes what stands in front of its end. -/
theorem between_readTerminated (hsize : (bytes.size : Int) ≤ Position.highest)
    (hp : 0 ≤ p ∧ p ≤ bytes.size) :
    bytes.between p (readTerminated bytes p).2 = bytes.taken p 0 := by
  rw [taken, piece]
  rcases readTerminated_cases hsize hp with
    ⟨found, ⟨q, hread, _, _, hpieces, hbetween⟩ | ⟨hread, hpieces, hbetween⟩⟩
  · have hmore : 0 < (bytes.pieces q).length := List.length_pos_iff.2 (List.splitOn_ne_nil 0 _)
    rw [hread, hbetween, hpieces, List.length_cons, if_pos (by omega)]
    rfl
  · rw [hread, hbetween, hpieces, List.length_singleton, if_neg (by omega), List.append_nil]
    rfl

/-- The place behind some pieces is as far behind the first one as the others go. -/
theorem behind_succ (hsize : (bytes.size : Int) ≤ Position.highest) (hp : 0 ≤ p ∧ p ≤ bytes.size)
    (n : Nat) : bytes.behind p (n + 1) = bytes.behind (readTerminated bytes p).2 n := by
  rw [behind, behind]
  rcases readTerminated_cases hsize hp with
    ⟨found, ⟨q, hread, hq, _, hpieces, _⟩ | ⟨hread, hpieces, _⟩⟩
  · rw [hread, hpieces, List.length_cons, List.take_succ_cons, List.flatMap_cons,
      List.length_append, hq, Int.natCast_add, Int.add_assoc]
    simp only [Nat.add_lt_add_iff_right]
  · rw [hread, hpieces, pieces_size, List.length_singleton, List.length_singleton,
      if_neg (by omega)]
    cases n with
    | zero => exact (Int.add_zero _).symm
    | succ n => rw [if_neg (by omega)]

end Payload

/-! ## Texts in a row -/

/-- Readings that stay where they are give the same each time. -/
theorem readTimes_of_fixed {α : Type} {reading : Position → α × Position} {a : α} {p : Position}
    (h : reading p = (a, p)) (n : Nat) : readTimes reading n p = (List.replicate n a, p) := by
  induction n with
  | zero => rfl
  | succ n ih => rw [readTimes_succ, h, ih, List.replicate_succ]

/-- Texts in a row are the pieces in order, and they end behind these. -/
theorem readTimes_readTerminated (hsize : (bytes.size : Int) ≤ Position.highest)
    (hp : 0 ≤ p ∧ p ≤ bytes.size) (n : Nat) :
    readTimes (readTerminated bytes) n p =
      ((List.range n).map fun i => Utf8.text (bytes.piece p i), bytes.behind p n) := by
  induction n generalizing p with
  | zero => rw [readTimes_zero, bytes.behind_zero, List.range_zero, List.map_nil]
  | succ n ih =>
    obtain ⟨hforth, hinside⟩ := inside_readTerminated hsize hp
    have hrest := ih ⟨Int.le_trans hp.1 hforth, hinside⟩
    rw [readTimes_succ, hrest, fst_readTerminated hsize hp, List.range_succ_eq_map, List.map_cons,
      List.map_map, Payload.behind_succ hsize hp]
    simp only [Function.comp_def, Payload.piece_succ hsize hp]

/-- The first `n` of the pieces, and nothing for those that are missing. -/
theorem map_range_getD {α β : Type} (f : α → β) (l : List α) (a : α) (n : Nat) :
    ((List.range n).map fun i => f (l.getD i a)) =
      (l.take n).map f ++ List.replicate (n - l.length) (f a) := by
  induction n generalizing l with
  | zero => simp
  | succ n ih =>
    rw [List.range_succ_eq_map, List.map_cons, List.map_map]
    cases l with
    | nil =>
      show f a :: ((List.range n).map fun i => f (([] : List α).getD i a)) = _
      rw [ih []]
      simp [List.replicate_succ]
    | cons b l =>
      show f b :: ((List.range n).map fun i => f (l.getD i a)) = _
      rw [ih l]
      simp

namespace Payload

/-- Each of the texts starts behind the pieces in front of it. -/
theorem getElem?_starts_readTerminated (hsize : (bytes.size : Int) ≤ Position.highest)
    (hp : 0 ≤ p ∧ p ≤ bytes.size) {n i : Nat} (hi : i < n) :
    (starts (readTerminated bytes) n p)[i]? = some (bytes.behind p i) := by
  induction n generalizing p i with
  | zero => omega
  | succ n ih =>
    obtain ⟨hforth, hinside⟩ := inside_readTerminated hsize hp
    rw [starts]
    cases i with
    | zero => rw [bytes.behind_zero, List.getElem?_cons_zero]
    | succ i =>
      rw [List.getElem?_cons_succ, behind_succ hsize hp]
      exact ih ⟨Int.le_trans hp.1 hforth, hinside⟩ (Nat.lt_of_succ_lt_succ hi)

/-- The bytes between two starts are those that the first of the two texts takes. -/
theorem between_behind (hsize : (bytes.size : Int) ≤ Position.highest)
    (hp : 0 ≤ p ∧ p ≤ bytes.size) (i : Nat) :
    bytes.between (bytes.behind p i) (bytes.behind p (i + 1)) = bytes.taken p i := by
  induction i generalizing p with
  | zero =>
    rw [behind_succ hsize hp, behind_zero, behind_zero]
    exact between_readTerminated hsize hp
  | succ i ih =>
    obtain ⟨hforth, hinside⟩ := inside_readTerminated hsize hp
    rw [behind_succ hsize hp, behind_succ hsize hp (i + 1), taken_succ hsize hp]
    exact ih ⟨Int.le_trans hp.1 hforth, hinside⟩

/-- Texts in a row never leave the payload, and never go back. -/
theorem behind_inside (hsize : (bytes.size : Int) ≤ Position.highest)
    (hp : 0 ≤ p ∧ p ≤ bytes.size) (n : Nat) :
    p ≤ bytes.behind p n ∧ bytes.behind p n ≤ bytes.size := by
  induction n generalizing p with
  | zero =>
    rw [behind_zero]
    exact ⟨Int.le_refl p, hp.2⟩
  | succ n ih =>
    obtain ⟨hforth, hinside⟩ := inside_readTerminated hsize hp
    obtain ⟨hfirst, hlast⟩ := ih ⟨Int.le_trans hp.1 hforth, hinside⟩
    rw [behind_succ hsize hp]
    exact ⟨Int.le_trans hforth hfirst, hlast⟩

end Payload

namespace Field

/-- In the payload the texts are the first pieces of what is left of it, and empty where there are
not so many.  They end behind the zero byte of the last piece, or with the payload if one of the
pieces has no zero byte behind it.  Each text starts behind the pieces in front of it, and up to
where the next one starts there is what it takes and nothing else.  Outside of the payload the texts
are empty and stay where they are. -/
theorem read_terminated (bytes : Payload) (hsize : (bytes.size : Int) ≤ Position.highest) (p : Int)
    (n : Nat) :
    (0 ≤ p ∧ p ≤ bytes.size →
      let pieces := bytes.pieces p
      Field.terminated.read n bytes p =
          ((pieces.take n).map (fun piece => .text (Utf8.text piece)) ++
              List.replicate (n - pieces.length) (.text ""),
            bytes.behind p n) ∧
        p ≤ bytes.behind p n ∧ bytes.behind p n ≤ bytes.size ∧
        ∀ i < n, (starts (readTerminated bytes) n p)[i]? = some (bytes.behind p i) ∧
          bytes.between (bytes.behind p i) (bytes.behind p (i + 1)) = bytes.taken p i) ∧
      (p < 0 ∨ bytes.size < p →
        Field.terminated.read n bytes p = (List.replicate n (.text ""), p)) := by
  have hread : Field.terminated.read n bytes p =
      ((readTimes (readTerminated bytes) n p).1.map Datum.text,
        (readTimes (readTerminated bytes) n p).2) :=
    readTimes_map (readTerminated bytes) Datum.text n p
  rw [hread]
  refine ⟨fun hp => ?_, fun hout => ?_⟩
  · obtain ⟨hforth, hinside⟩ := Payload.behind_inside hsize hp n
    refine ⟨?_, hforth, hinside, fun i hi =>
      ⟨Payload.getElem?_starts_readTerminated hsize hp hi, Payload.between_behind hsize hp i⟩⟩
    rw [readTimes_readTerminated hsize hp, List.map_map]
    exact congrArg (·, _) (map_range_getD (fun piece => Datum.text (Utf8.text piece)) _ [] n)
  · have houtside : ¬(0 ≤ p ∧ p ≤ bytes.size) := by omega
    have hfixed : readTerminated bytes p = ("", p) := by
      rw [readTerminated, Payload.segment, if_neg houtside]
      rfl
    rw [readTimes_of_fixed hfixed, List.map_replicate]

/-- Two zero bytes in a row and a piece without one, read up to the second of them and further than
there are pieces; and a place behind the payload. -/
theorem read_terminated_beyond_pieces :
    let bytes : Payload := #[0x61, 0x62, 0, 0, 0x63]
    (bytes.size : Int) ≤ Position.highest ∧ ((0 : Int) ≤ 1 ∧ (1 : Int) ≤ bytes.size) ∧
      ((6 : Int) < 0 ∨ (bytes.size : Int) < 6) ∧
      Field.terminated.read 2 bytes 1 = ([.text "b", .text ""], 4) ∧
      Field.terminated.read 4 bytes 1 = ([.text "b", .text "", .text "c", .text ""], 5) ∧
      Field.terminated.read 2 bytes 6 = ([.text "", .text ""], 6) := by
  intro bytes
  have hpieces : bytes.pieces 1 = [[0x62], [], [0x63]] := by decide +kernel
  have hread (n : Nat) :=
    ((read_terminated bytes (by decide) 1 n).1 (by decide)).1
  refine ⟨by decide, by decide, by decide, ?_, ?_, (read_terminated bytes (by decide) 6 2).2
    (by decide)⟩
  · rw [hread, hpieces, show bytes.behind 1 2 = 4 by decide +kernel]
    rfl
  · rw [hread, hpieces, show bytes.behind 1 4 = 5 by decide +kernel]
    rfl

end Field

end BinaryLayout
