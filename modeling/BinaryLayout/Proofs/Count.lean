import BinaryLayout.Token

/-!
# Reading and writing counts

A count is read digit by digit with saturating arithmetic, which comes to the number that the digits
stand for, cut off at the greatest count (`ofDigits_eq_min`).  So the decimal digits of a count are
read back as that count (`read_write_append`).

Digits spell a number if they are its digits in decimal, behind any number of zeros, and they spell
no number but the one that they stand for (`spells_iff`).
-/

namespace BinaryLayout.Count

/-! ## Digits -/

/-- One more digit of a number that has been cut off. -/
theorem add_mul_min (n d : Nat) :
    add (mul (min n greatest) 10) d = min (10 * n + d) greatest := by
  have hpos : 0 < greatest := by decide
  unfold add mul
  omega

theorem foldl_eq_min (digits : List Char) (n : Nat) :
    digits.foldl (fun n d => add (mul n 10) (d.toNat - '0'.toNat)) (min n greatest) =
      min (Nat.ofDigitChars 10 digits n) greatest := by
  induction digits generalizing n with
  | nil => rfl
  | cons d digits ih =>
    rw [List.foldl_cons, add_mul_min, ih]
    rfl

/-- Digits stand for their decimal value, or for the greatest count if that is less. -/
theorem ofDigits_eq_min (digits : List Char) :
    ofDigits digits = min (Nat.ofDigitChars 10 digits 0) greatest := by
  rw [← foldl_eq_min, Nat.min_eq_left (Nat.zero_le _)]
  rfl

/-- A digit is worth nothing only if it is a zero. -/
theorem digit_eq_zero_iff {c : Char} (h : c.isDigit = true) :
    c.toNat - '0'.toNat = 0 ↔ c = '0' := by
  have hlow : '0'.toNat ≤ c.toNat :=
    UInt32.le_iff_toNat_le.1 (of_decide_eq_true (Bool.and_eq_true_iff.1 h).1)
  rw [← Char.toNat_inj]
  omega

/-- Digits stand for zero only if all of them are zeros. -/
theorem ofDigits_eq_zero_iff {digits : List Char} (h : ∀ c ∈ digits, c.isDigit = true) :
    ofDigits digits = 0 ↔ ∀ c ∈ digits, c = '0' := by
  have hvalue (n : Nat) : Nat.ofDigitChars 10 digits n = 0 ↔ n = 0 ∧ ∀ c ∈ digits, c = '0' := by
    induction digits generalizing n with
    | nil => simp
    | cons d digits ih =>
      rw [List.forall_mem_cons] at h
      rw [Nat.ofDigitChars_cons, ih h.2, List.forall_mem_cons, ← digit_eq_zero_iff h.1, ← and_assoc]
      refine and_congr_left fun _ => ?_
      omega
  have hpos : 0 < greatest := by decide
  have hmin : ofDigits digits = 0 ↔ Nat.ofDigitChars 10 digits 0 = 0 := by
    rw [ofDigits_eq_min]
    omega
  rw [hmin, hvalue]
  exact and_iff_right rfl

/-- What is read is a count. -/
theorem le_greatest_of_read {text rest : List Char} {n : Nat} (h : read text = (some n, rest)) :
    n ≤ greatest := by
  simp only [read, Prod.mk.injEq] at h
  obtain ⟨h, _⟩ := h
  split at h
  · cases h
  · rw [← Option.some.inj h, ofDigits_eq_min]
    exact Nat.min_le_right _ _

/-! ## Spelling -/

/-- Digits as a count: the number that they stand for in decimal, `2 ^ 64 - 1` at most, if there are
any digits. -/
def capped (digits : List Char) : Option Nat :=
  if digits = [] then none else some (min (Nat.ofDigitChars 10 digits 0) (UInt64.size - 1))

/-- Whether digits are those of a number in decimal, behind any number of zeros. -/
def Spells (digits : List Char) (n : Nat) : Prop :=
  ∃ zeros, digits = List.replicate zeros '0' ++ Nat.toDigits 10 n

/-- A digit is the one that its value is written with. -/
theorem digitChar_eq {c : Char} (h : c.isDigit = true) :
    c.toNat - '0'.toNat < 10 ∧ Nat.digitChar (c.toNat - '0'.toNat) = c := by
  obtain ⟨hlow, hhigh⟩ := Bool.and_eq_true_iff.1 h
  have hzero : 48 ≤ c.toNat := UInt32.le_iff_toNat_le.1 (of_decide_eq_true hlow)
  have hnine : c.toNat ≤ 57 := UInt32.le_iff_toNat_le.1 (of_decide_eq_true hhigh)
  have hlt : c.toNat - '0'.toNat < 10 := show c.toNat - 48 < 10 by omega
  refine ⟨hlt, Char.toNat_inj.1 ?_⟩
  rw [Nat.toNat_digitChar_of_lt_ten hlt]
  show 48 + (c.toNat - 48) = c.toNat
  omega

/-- Behind a number that is not zero, more digits only make it longer. -/
theorem toDigits_append {digits : List Char} (h : ∀ c ∈ digits, c.isDigit = true) {n : Nat}
    (hn : 0 < n) :
    Nat.toDigits 10 n ++ digits = Nat.toDigits 10 (Nat.ofDigitChars 10 digits n) := by
  induction digits generalizing n with
  | nil => rw [List.append_nil, Nat.ofDigitChars_nil]
  | cons c digits ih =>
    obtain ⟨hc, hdigits⟩ := List.forall_mem_cons.1 h
    obtain ⟨hlt, hchar⟩ := digitChar_eq hc
    have hone : Nat.toDigits 10 n ++ [c] = Nat.toDigits 10 (10 * n + (c.toNat - '0'.toNat)) := by
      rw [← Nat.toDigits_append_toDigits (by decide) hn hlt, Nat.toDigits_of_lt_base hlt, hchar]
    rw [List.append_cons, hone, ih hdigits (by omega), Nat.ofDigitChars_cons]

/-- Digits spell the number that they stand for. -/
theorem spells_ofDigitChars {digits : List Char} (h : ∀ c ∈ digits, c.isDigit = true)
    (hne : digits ≠ []) : Spells digits (Nat.ofDigitChars 10 digits 0) := by
  induction digits with
  | nil => exact absurd rfl hne
  | cons c digits ih =>
    obtain ⟨hc, hdigits⟩ := List.forall_mem_cons.1 h
    by_cases hzero : c = '0'
    · -- A zero in front adds nothing, but one that stands alone is the number itself.
      subst hzero
      cases digits with
      | nil => exact ⟨0, rfl⟩
      | cons d digits =>
        obtain ⟨zeros, heq⟩ := ih hdigits (List.cons_ne_nil d digits)
        refine ⟨zeros + 1, ?_⟩
        rw [List.replicate_succ, List.cons_append]
        exact congrArg _ heq
    · obtain ⟨hlt, hchar⟩ := digitChar_eq hc
      have hpos : 0 < c.toNat - '0'.toNat :=
        Nat.pos_of_ne_zero fun h => hzero ((digit_eq_zero_iff hc).1 h)
      refine ⟨0, ?_⟩
      rw [Nat.ofDigitChars_cons, Nat.mul_zero, Nat.zero_add, ← toDigits_append hdigits hpos,
        Nat.toDigits_of_lt_base hlt, hchar]
      rfl

/-- Digits spell the number that they stand for and no other. -/
theorem spells_iff {digits : List Char} (h : ∀ c ∈ digits, c.isDigit = true) {n : Nat} :
    Spells digits n ↔ digits ≠ [] ∧ Nat.ofDigitChars 10 digits 0 = n := by
  constructor
  · rintro ⟨zeros, rfl⟩
    refine ⟨List.append_ne_nil_of_right_ne_nil _ Nat.toDigits_ne_nil, ?_⟩
    rw [Nat.ofDigitChars_append, Nat.ofDigitChars_replicate_zero, Nat.mul_zero,
      Nat.ofDigitChars_ten_toDigits]
  · rintro ⟨hne, rfl⟩
    exact spells_ofDigitChars h hne

/-- Up to the greatest count digits are worth what they spell. -/
theorem capped_of_spells {digits : List Char} (h : ∀ c ∈ digits, c.isDigit = true) {n : Nat}
    (hn : n < UInt64.size) (hspells : Spells digits n) : capped digits = some n := by
  obtain ⟨hne, hvalue⟩ := (spells_iff h).1 hspells
  rw [capped, if_neg hne, hvalue, Nat.min_eq_left (by omega)]

/-- Below the greatest count digits spell what they are worth. -/
theorem spells_of_capped {digits : List Char} (h : ∀ c ∈ digits, c.isDigit = true) {n : Nat}
    (hn : n < UInt64.size - 1) (hcapped : capped digits = some n) : Spells digits n := by
  unfold capped at hcapped
  split at hcapped
  · cases hcapped
  · next hne =>
    have hmin : min (Nat.ofDigitChars 10 digits 0) (UInt64.size - 1) = n := Option.some.inj hcapped
    exact (spells_iff h).2 ⟨hne, by omega⟩

/-- This is the count that is read from digits. -/
theorem capped_eq (digits : List Char) :
    capped digits = if digits.isEmpty then none else some (ofDigits digits) := by
  rw [ofDigits_eq_min]
  cases digits <;> rfl

/-! ## Writing -/

/-- The decimal digits of a count. -/
def write (n : Nat) : List Char := Nat.toDigits 10 n

/-- Whether what follows a count cannot be taken for more of its digits. -/
def Ends (text : List Char) : Prop := ∀ c ∈ text.head?, c.isDigit = false

theorem ends_nil : Ends [] := nofun

theorem ends_cons {c : Char} {text : List Char} (h : c.isDigit = false) : Ends (c :: text) := by
  intro d hd
  cases hd
  exact h

/-- A written count begins with a digit. -/
theorem exists_write_eq_cons (n : Nat) :
    ∃ d digits, write n = d :: digits ∧ d.isDigit = true := by
  obtain ⟨d, digits, h⟩ := List.exists_cons_of_ne_nil (Nat.toDigits_ne_nil (n := n) (b := 10))
  refine ⟨d, digits, h, Nat.isDigit_of_mem_toDigits (b := 10) (n := n) (by decide) (by decide) ?_⟩
  rw [h]
  exact List.mem_cons_self

theorem ofDigits_write {n : Nat} (h : n ≤ greatest) : ofDigits (write n) = n := by
  rw [ofDigits_eq_min, write, Nat.ofDigitChars_ten_toDigits]
  exact Nat.min_eq_left h

theorem takeWhile_isDigit_of_ends {text : List Char} (h : Ends text) :
    text.takeWhile Char.isDigit = [] ∧ text.dropWhile Char.isDigit = text := by
  cases text with
  | nil => exact ⟨rfl, rfl⟩
  | cons c rest =>
    have hc : c.isDigit = false := h c rfl
    simp [hc]

/-- Where no digit comes first no count is read. -/
theorem read_of_ends {text : List Char} (h : Ends text) : read text = (none, text) := by
  obtain ⟨htake, hdrop⟩ := takeWhile_isDigit_of_ends h
  simp [read, htake, hdrop]

/-- A written count is read back. -/
theorem read_write_append {n : Nat} (hn : n ≤ greatest) {text : List Char} (h : Ends text) :
    read (write n ++ text) = (some n, text) := by
  obtain ⟨htake, hdrop⟩ := takeWhile_isDigit_of_ends h
  have hdigits : ∀ c ∈ write n, c.isDigit = true := fun c hc =>
    Nat.isDigit_of_mem_toDigits (by decide) (by decide) hc
  have hne : write n ≠ [] := Nat.toDigits_ne_nil
  rw [read, List.takeWhile_append_of_pos hdigits, List.dropWhile_append_of_pos hdigits, htake,
    hdrop, List.append_nil, ofDigits_write hn]
  simp [hne]

end BinaryLayout.Count
