import BinaryLayout.Position

/-!
# Moves that go all the way

A move stops early only where its distance is no position or its end is none.  Elsewhere moves are
sums and differences of integers.
-/

namespace BinaryLayout.Position

variable {p : Int} {n : Nat}

theorem lowest_lt_zero : lowest < 0 := by decide

theorem clamp_eq (hlow : lowest ≤ p) (hhigh : p ≤ highest) : clamp p = p := by
  rw [clamp, Int.min_eq_left hhigh, Int.max_eq_right hlow]

theorem distance_eq (h : (n : Int) ≤ highest) : distance n = n := Int.min_eq_left h

theorem advance_eq (hn : (n : Int) ≤ highest) (hlow : lowest ≤ p + n) (hhigh : p + n ≤ highest) :
    advance p n = p + n := by
  rw [advance, distance_eq hn, clamp_eq hlow hhigh]

theorem retreat_eq (hn : (n : Int) ≤ highest) (hlow : lowest ≤ p - n) (hhigh : p - n ≤ highest) :
    retreat p n = p - n := by
  rw [retreat, distance_eq hn, clamp_eq hlow hhigh]

/-- From a place in the payload or behind it only the end of a move can be no position. -/
theorem advance_of_nonneg (hp : 0 ≤ p) (hhigh : p + n ≤ highest) : advance p n = p + n := by
  have hstop : 0 ≤ p + n := by omega
  exact advance_eq (by omega) (Int.le_trans (Int.le_of_lt lowest_lt_zero) hstop) hhigh

/-- Behind the start of the payload no move ends further on than it was to go. -/
theorem lt_of_lt_advance {i : Int} (hi : 0 ≤ i) (h : i < advance p n) : i < p + n := by
  change i < max (-9223372036854775808 : Int)
    (min (p + min (n : Int) 9223372036854775807) 9223372036854775807) at h
  omega

end BinaryLayout.Position
