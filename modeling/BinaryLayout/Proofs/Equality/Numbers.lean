import BinaryLayout.Json.Numeral
import BinaryLayout.Number
import BinaryLayout.Proofs.Layout.Shape
import Mathlib.Data.Rat.Cast.Order
import Mathlib.Tactic.Ring
import Mathlib.Tactic.Linarith

/-!
# When two numbers are equal

Doubles are compared by their bits, and these are compared as numbers: a double that is no NaN is an
infinity or stands for a rational number, and two doubles are equal exactly if they stand for the
same.  Only the two zeros stand for one number with different bits.

There are three groups.

* Parts.  A double is given by its sign, its exponent and its fraction.
* Units.  Every finite double is a whole multiple of `2 ^ -1074`.  Which multiple it is, its sign
  apart, tells exponent and fraction (`units_inj`).
* Values.  `Binary64.value?` is what a double stands for, and `numEq_iff` compares it with the
  comparison of bits.  `Number.equal_iff` does so for all decoded numbers.
-/

namespace BinaryLayout

namespace Binary64

variable {x y : Binary64}

/-! ## Parts -/

theorem fraction_lt (x : Binary64) : x.fraction < 2 ^ 52 := Nat.mod_lt _ (by decide)

/-- The bits are sign, exponent and fraction one behind the other. -/
theorem toNat_bits (x : Binary64) :
    x.bits.toNat = (if x.negative then 2 ^ 63 else 0) + x.exponent * 2 ^ 52 + x.fraction := by
  have hlt : x.bits.toNat < 2 ^ 64 := x.bits.toNat_lt
  have hexponent : x.exponent = x.bits.toNat / 2 ^ 52 % 2048 := by
    rw [exponent, Nat.shiftRight_eq_div_pow]
  have hfraction : x.fraction = x.bits.toNat % 2 ^ 52 := rfl
  have hnegative : (x.negative = true) = (2 ^ 63 ≤ x.bits.toNat) := by
    rw [negative, decide_eq_true_eq]
    rfl
  simp only [hnegative]
  split <;> omega

theorem eq_of_parts (hsign : x.negative = y.negative) (hexponent : x.exponent = y.exponent)
    (hfraction : x.fraction = y.fraction) : x = y := by
  have hbits : x.bits.toNat = y.bits.toNat := by
    rw [toNat_bits, toNat_bits, hsign, hexponent, hfraction]
  have hword : x.bits = y.bits := UInt64.toNat_inj.1 hbits
  cases x
  cases y
  exact congrArg _ hword

/-! ## Units -/

/-- The absolute value of a finite double as a multiple of `2 ^ -1074`. -/
def units (x : Binary64) : Nat :=
  if x.exponent = 0 then x.fraction else (2 ^ 52 + x.fraction) * 2 ^ (x.exponent - 1)

/-- A greater exponent makes a greater number, whatever the fraction. -/
theorem units_lt_of_exponent_lt (h : x.exponent < y.exponent) : x.units < y.units := by
  have hx := x.fraction_lt
  have hpos : y.exponent ≠ 0 := by omega
  obtain ⟨k, hk⟩ : ∃ k, y.exponent - 1 = k := ⟨_, rfl⟩
  have hy : 2 ^ 52 * 2 ^ k ≤ y.units := by
    rw [units, if_neg hpos, hk]
    exact Nat.mul_le_mul_right _ (Nat.le_add_right _ _)
  refine Nat.lt_of_lt_of_le ?_ hy
  rw [units]
  split
  · have hone : 1 ≤ 2 ^ k := Nat.one_le_two_pow
    calc x.fraction < 2 ^ 52 * 1 := by omega
      _ ≤ 2 ^ 52 * 2 ^ k := Nat.mul_le_mul_left _ hone
  · have hle : 2 ^ (x.exponent - 1 + 1) ≤ 2 ^ k := Nat.pow_le_pow_right (by decide) (by omega)
    calc (2 ^ 52 + x.fraction) * 2 ^ (x.exponent - 1)
        < (2 ^ 52 + 2 ^ 52) * 2 ^ (x.exponent - 1) :=
          Nat.mul_lt_mul_of_pos_right (by omega) (Nat.pow_pos (by decide))
      _ = 2 ^ 52 * 2 ^ (x.exponent - 1 + 1) := by rw [Nat.pow_succ]; ring
      _ ≤ 2 ^ 52 * 2 ^ k := Nat.mul_le_mul_left _ hle

theorem units_inj (h : x.units = y.units) : x.exponent = y.exponent ∧ x.fraction = y.fraction := by
  have hexponent : x.exponent = y.exponent := by
    rcases Nat.lt_trichotomy x.exponent y.exponent with hlt | heq | hlt
    · have := units_lt_of_exponent_lt hlt
      omega
    · exact heq
    · have := units_lt_of_exponent_lt hlt
      omega
  refine ⟨hexponent, ?_⟩
  rw [units, units, hexponent] at h
  split at h
  · exact h
  · exact Nat.add_left_cancel (Nat.eq_of_mul_eq_mul_right (Nat.pow_pos (by decide)) h)

theorem units_eq_zero_iff : x.units = 0 ↔ x.isZero = true := by
  rw [isZero, Bool.and_eq_true, beq_iff_eq, beq_iff_eq, units]
  split
  · next h => simp [h]
  · next h =>
    have hpos : 0 < (2 ^ 52 + x.fraction) * 2 ^ (x.exponent - 1) :=
      Nat.mul_pos (by omega) (Nat.pow_pos (by decide))
    simp [h]

/-! ## Values -/

/-- What a double stands for that is no NaN. -/
inductive Value where
  | infinite (negative : Bool)
  | finite (value : ℚ)
deriving DecidableEq

/-- The number that a finite double stands for. -/
def rational (x : Binary64) : ℚ :=
  (if x.negative then -1 else 1) * (x.magnitude.significand * 2 ^ x.magnitude.exponent)

/-- What the double stands for. -/
def value? (x : Binary64) : Option Value :=
  if x.isNaN then none
  else if x.isInfinite then some (.infinite x.negative)
  else some (.finite x.rational)

/-- The least positive double. -/
def least : ℚ := 2 ^ (-1074 : ℤ)

theorem least_ne_zero : least ≠ 0 := zpow_ne_zero _ (by decide)

/-- The units with the sign of the double. -/
def signedUnits (x : Binary64) : Int := if x.negative then -x.units else x.units

theorem natAbs_signedUnits (x : Binary64) : x.signedUnits.natAbs = x.units := by
  rw [signedUnits]
  split <;> omega

/-- The units tell the sign of a number that is not zero. -/
theorem negative_eq (h : x.units ≠ 0) : x.negative = decide (x.signedUnits < 0) := by
  rw [signedUnits]
  cases x.negative with
  | true => exact (decide_eq_true (show -(x.units : Int) < 0 by omega)).symm
  | false => exact (decide_eq_false (show ¬(x.units : Int) < 0 by omega)).symm

/-- A finite double is a whole multiple of the least one. -/
theorem rational_eq (x : Binary64) : x.rational = x.signedUnits * least := by
  have hunits : (x.magnitude.significand : ℚ) * 2 ^ x.magnitude.exponent = x.units * least := by
    rw [magnitude, units]
    split
    · rfl
    · next h =>
      have hpower : (x.exponent : ℤ) - 1075 = ((x.exponent - 1 : Nat) : ℤ) + -1074 := by omega
      show (((1 <<< 52 + x.fraction : Nat) : ℚ)) * 2 ^ ((x.exponent : ℤ) - 1075) = _
      rw [hpower, zpow_add₀ (by decide), zpow_natCast, ← mul_assoc, ← least]
      push_cast
      rfl
  rw [rational, hunits, signedUnits]
  split
  · rw [Int.cast_neg, Int.cast_natCast, neg_one_mul, neg_mul]
  · rw [Int.cast_natCast, one_mul]

/-- Finite doubles that stand for the same number are equal or zero. -/
theorem eq_or_isZero_of_rational_eq (h : x.rational = y.rational) :
    x = y ∨ x.isZero = true ∧ y.isZero = true := by
  rw [rational_eq, rational_eq] at h
  have hsigned : x.signedUnits = y.signedUnits := Int.cast_inj.1 (mul_right_cancel₀ least_ne_zero h)
  have hunits : x.units = y.units := by
    rw [← natAbs_signedUnits, hsigned, natAbs_signedUnits]
  by_cases hzero : x.units = 0
  · exact .inr ⟨units_eq_zero_iff.1 hzero, units_eq_zero_iff.1 (hunits ▸ hzero)⟩
  · have hsign : x.negative = y.negative := by
      rw [negative_eq hzero, negative_eq (hunits ▸ hzero), hsigned]
    obtain ⟨hexponent, hfraction⟩ := units_inj hunits
    exact .inl (eq_of_parts hsign hexponent hfraction)

theorem value?_of_isZero (h : x.isZero = true) : x.value? = some (.finite 0) := by
  have hexponent : x.exponent = 0 := beq_iff_eq.1 (Bool.and_eq_true_iff.1 h).1
  have hrational : x.rational = 0 := by
    rw [rational_eq, signedUnits, units_eq_zero_iff.2 h]
    simp
  rw [value?, isNaN, isInfinite, hexponent, hrational]
  rfl

/-- A double that is no NaN stands for something. -/
theorem exists_value? (h : x.isNaN = false) : ∃ v, x.value? = some v := by
  rw [value?, h]
  split
  · next hnan => cases hnan
  split
  · exact ⟨_, rfl⟩
  · exact ⟨_, rfl⟩

theorem value?_eq_some {v : Value} (h : x.value? = some v) :
    x.isNaN = false ∧
      (x.isInfinite = true ∧ v = .infinite x.negative ∨ v = .finite x.rational) := by
  unfold value? at h
  split at h
  · cases h
  · next hnan =>
    refine ⟨Bool.eq_false_iff.2 hnan, ?_⟩
    split at h
    · next hinfinite => exact .inl ⟨hinfinite, (Option.some.inj h).symm⟩
    · exact .inr (Option.some.inj h).symm

/-- Infinities have all parts but the sign in common. -/
theorem eq_of_isInfinite (hx : x.isInfinite = true) (hy : y.isInfinite = true)
    (hsign : x.negative = y.negative) : x = y := by
  rw [isInfinite, Bool.and_eq_true, beq_iff_eq, beq_iff_eq] at hx hy
  exact eq_of_parts hsign (hx.1.trans hy.1.symm) (hx.2.trans hy.2.symm)

/-- Doubles that stand for the same have the same bits or are zero. -/
theorem eq_or_isZero_of_value? {v : Value} (hx : x.value? = some v) (hy : y.value? = some v) :
    x = y ∨ x.isZero = true ∧ y.isZero = true := by
  rcases (value?_eq_some hx).2 with ⟨hinfinite, rfl⟩ | rfl
  · rcases (value?_eq_some hy).2 with ⟨hother, hsign⟩ | hsame
    · exact .inl (eq_of_isInfinite hinfinite hother (Value.infinite.inj hsign))
    · cases hsame
  · rcases (value?_eq_some hy).2 with ⟨_, hsame⟩ | hsame
    · cases hsame
    · exact eq_or_isZero_of_rational_eq (Value.finite.inj hsame)

/-- **Doubles compare as numbers.**  They are equal if both stand for something, and for the
same. -/
theorem numEq_iff (x y : Binary64) :
    x.numEq y = true ↔ ∃ v, x.value? = some v ∧ y.value? = some v := by
  rw [numEq]
  constructor
  · intro h
    simp only [Bool.and_eq_true, Bool.not_eq_true', Bool.or_eq_true, beq_iff_eq] at h
    obtain ⟨⟨hx, _⟩, hbits | ⟨hzero, hother⟩⟩ := h
    · obtain ⟨v, hv⟩ := exists_value? hx
      have hsame : x = y := by
        cases x
        cases y
        exact congrArg _ hbits
      exact ⟨v, hv, hsame ▸ hv⟩
    · exact ⟨_, value?_of_isZero hzero, value?_of_isZero hother⟩
  · rintro ⟨v, hx, hy⟩
    rw [(value?_eq_some hx).1, (value?_eq_some hy).1]
    rcases eq_or_isZero_of_value? hx hy with rfl | ⟨hzero, hother⟩
    · simp
    · simp [hzero, hother]

/-- Zero has two signs, and is one number. -/
example : numEq ⟨0⟩ ⟨0x8000000000000000⟩ = true ∧ numEq .nan .nan = false := by decide

end Binary64

namespace Number

/-- What the number stands for. -/
def value? : Number → Option Binary64.Value
  | .unsigned n => some (.finite n.toNat)
  | .signed n => some (.finite n.toInt)
  | .float x => x.value?

/-- The numbers were read in the same way and stand for the same. -/
def Agrees (m n : Number) : Prop := m.tag = n.tag ∧ ∃ v, m.value? = some v ∧ n.value? = some v

variable {l m n : Number}

/-- Decoded numbers are compared by the way in which they were read and as numbers. -/
theorem equal_iff (m n : Number) : m.equal n = true ↔ m.Agrees n := by
  cases m with
  | unsigned m =>
    cases n with
    | unsigned n =>
      have hvalue : n.toNat = m.toNat ↔ m = n := UInt64.toNat_inj.trans eq_comm
      refine Iff.trans ?_ (and_iff_right rfl).symm
      simp [equal, value?, hvalue]
    | signed n => exact iff_of_false Bool.false_ne_true fun h => by cases h.1
    | float y => exact iff_of_false Bool.false_ne_true fun h => by cases h.1
  | signed m =>
    cases n with
    | unsigned n => exact iff_of_false Bool.false_ne_true fun h => by cases h.1
    | signed n =>
      have hvalue : n.toInt = m.toInt ↔ m = n := Int64.toInt_inj.trans eq_comm
      refine Iff.trans ?_ (and_iff_right rfl).symm
      simp [equal, value?, hvalue]
    | float y => exact iff_of_false Bool.false_ne_true fun h => by cases h.1
  | float x =>
    cases n with
    | unsigned n => exact iff_of_false Bool.false_ne_true fun h => by cases h.1
    | signed n => exact iff_of_false Bool.false_ne_true fun h => by cases h.1
    | float y => exact (Binary64.numEq_iff x y).trans (and_iff_right rfl).symm

theorem Agrees.symm (h : m.Agrees n) : n.Agrees m := by
  obtain ⟨htag, v, hm, hn⟩ := h
  exact ⟨htag.symm, v, hn, hm⟩

theorem Agrees.trans (h : l.Agrees m) (hmore : m.Agrees n) : l.Agrees n := by
  obtain ⟨htag, v, hl, hm⟩ := h
  obtain ⟨htag', w, hm', hn⟩ := hmore
  obtain rfl : v = w := Option.some.inj (hm.symm.trans hm')
  exact ⟨htag.trans htag', v, hl, hn⟩

/-- Only a NaN does not agree with itself. -/
theorem agrees_self_iff (n : Number) : n.Agrees n ↔ n.isNaN = false := by
  cases n with
  | unsigned n => exact ⟨fun _ => rfl, fun _ => ⟨rfl, _, rfl, rfl⟩⟩
  | signed n => exact ⟨fun _ => rfl, fun _ => ⟨rfl, _, rfl, rfl⟩⟩
  | float x =>
    constructor
    · rintro ⟨_, v, hv, _⟩
      exact (Binary64.value?_eq_some hv).1
    · intro h
      obtain ⟨v, hv⟩ := Binary64.exists_value? h
      exact ⟨rfl, v, hv, hv⟩

end Number

end BinaryLayout
