import BinaryLayout.Json.Printer
import BinaryLayout.Datum.Json
import BinaryLayout.Proofs.Count
import BinaryLayout.Proofs.Json.Reader
import Mathlib.Tactic.IntervalCases

/-!
# Numbers in JSON texts

Every number that is written is a JSON number: it reads back as the parts that it was put together
from, and nothing behind it is taken for more of it.  An integer is written with digits only; a
double always has a fraction or an exponent, so the two are never confused.

There are three groups.

* Numerals.  `Json.Numeral.write` puts a number together, and `readNumeral_write` takes it apart.
* Doubles.  The digits that identify a positive value are not zero (`Decimal.digits_shortest_pos`),
  so no needless zero comes first, and what is written is a numeral (`Binary64.exists_write_eq`).
* Decoded numbers.  `Number.toJson_cases` is what the JSON value of a number can be.
-/

namespace BinaryLayout

/-! ## Numerals -/

namespace Json

/-- Whether what follows a number cannot be taken for more of it. -/
def EndsNumber (text : List Char) : Prop :=
  ∀ c ∈ text.head?, c.isDigit = false ∧ c ≠ '.' ∧ c ≠ 'e' ∧ c ≠ 'E'

theorem EndsNumber.ends {text : List Char} (h : EndsNumber text) : Count.Ends text :=
  fun c hc => (h c hc).1

theorem endsNumber_cons (c : Char) (text : List Char)
    (h : c.isDigit = false ∧ c ≠ '.' ∧ c ≠ 'e' ∧ c ≠ 'E') : EndsNumber (c :: text) := by
  intro d hd
  cases hd
  exact h

theorem ne_of_startsNumber {c d : Char} (hc : startsNumber c = true)
    (hd : startsNumber d = false) : c ≠ d := by
  rintro rfl
  rw [hc] at hd
  cases hd

theorem isBlank_of_startsNumber {c : Char} (h : startsNumber c = true) : isBlank c = false := by
  have hspace := ne_of_startsNumber h (d := ' ') rfl
  have htab := ne_of_startsNumber h (d := '\t') rfl
  have hline := ne_of_startsNumber h (d := '\n') rfl
  have hreturn := ne_of_startsNumber h (d := '\r') rfl
  simp [isBlank, hspace, htab, hline, hreturn]

theorem readDigits_append {atEnd : Refusal} {digits rest : List Char}
    (hdigits : ∀ c ∈ digits, c.isDigit = true) (hne : digits ≠ []) (hrest : Count.Ends rest) :
    readDigits atEnd (digits ++ rest) = .ok (digits, rest) := by
  obtain ⟨htake, hdrop⟩ := Count.takeWhile_isDigit_of_ends hrest
  obtain ⟨c, tail, rfl⟩ := List.exists_cons_of_ne_nil hne
  have hc : c.isDigit = true := hdigits c List.mem_cons_self
  rw [List.cons_append, readDigits, if_pos hc, ← List.cons_append,
    List.takeWhile_append_of_pos hdigits, List.dropWhile_append_of_pos hdigits, htake, hdrop,
    List.append_nil]

theorem isDigit_of_mem_toDigits {n : Nat} {c : Char} (h : c ∈ Nat.toDigits 10 n) :
    c.isDigit = true :=
  Nat.isDigit_of_mem_toDigits (by decide) (by decide) h

/-- Only zero is written with a zero in front. -/
theorem eq_zero_of_toDigits_eq {n : Nat} {rest : List Char}
    (h : Nat.toDigits 10 n = '0' :: rest) : n = 0 := by
  induction n using Nat.strongRecOn generalizing rest with
  | ind n ih =>
    rw [Nat.toDigits_eq_if (by decide)] at h
    split at h
    · next hlt =>
      have hzero : Nat.digitChar n = '0' := (List.cons.inj h).1
      interval_cases n
      · rfl
      all_goals exact absurd hzero (by decide)
    · next hge =>
      -- The last digit comes off the end, so the first one is that of `n / 10`.
      obtain ⟨c, tail, hcons⟩ :=
        List.exists_cons_of_ne_nil (Nat.toDigits_ne_nil (n := n / 10) (b := 10))
      rw [hcons, List.cons_append] at h
      rw [(List.cons.inj h).1] at hcons
      have := ih (n / 10) (by omega) hcons
      omega

namespace Numeral

/-- The fraction of a number, if it has one. -/
def writeFraction (numeral : Numeral) : List Char :=
  if numeral.fraction = [] then [] else '.' :: numeral.fraction

/-- The exponent of a number, if it has one. -/
def writeExponent (numeral : Numeral) : List Char :=
  if numeral.exponent = 0 then []
  else 'e' :: (if numeral.exponent < 0 then '-' else '+') ::
    Nat.toDigits 10 numeral.exponent.natAbs

/-- The text of a number. -/
def write (numeral : Numeral) : List Char :=
  (if numeral.negative then ['-'] else []) ++
    (numeral.whole ++ (numeral.writeFraction ++ numeral.writeExponent))

/-- What the parts of a number have to be like. -/
structure Regular (numeral : Numeral) : Prop where
  digits_whole : ∀ c ∈ numeral.whole, c.isDigit = true
  whole_ne_nil : numeral.whole ≠ []
  /-- No digit follows a zero that comes first. -/
  leading : ∀ rest, numeral.whole = '0' :: rest → rest = []
  digits_fraction : ∀ c ∈ numeral.fraction, c.isDigit = true
  plain_iff : numeral.plain = true ↔ numeral.fraction = [] ∧ numeral.exponent = 0

variable {numeral : Numeral}

/-- Behind the fraction there is neither a digit nor a point. -/
theorem ends_writeExponent (numeral : Numeral) {rest : List Char} (hrest : EndsNumber rest) :
    Count.Ends (numeral.writeExponent ++ rest) ∧
      ∀ tail, numeral.writeExponent ++ rest ≠ '.' :: tail := by
  rw [writeExponent]
  split
  · rw [List.nil_append]
    refine ⟨hrest.ends, ?_⟩
    rintro tail rfl
    exact (hrest '.' rfl).2.1 rfl
  · refine ⟨Count.ends_cons (by decide), ?_⟩
    intro tail h
    exact absurd (List.cons.inj h).1 (by decide)

theorem readPower_write {atEnd : Refusal} (n : Int) {rest : List Char} (hrest : Count.Ends rest) :
    readPower atEnd ((if n < 0 then '-' else '+') :: (Nat.toDigits 10 n.natAbs ++ rest)) =
      .ok (n, rest) := by
  have hdigits : readDigits atEnd (Nat.toDigits 10 n.natAbs ++ rest) =
      .ok (Nat.toDigits 10 n.natAbs, rest) :=
    readDigits_append (fun c hc => isDigit_of_mem_toDigits hc) Nat.toDigits_ne_nil hrest
  by_cases hneg : n < 0
  · have habs : -(n.natAbs : Int) = n := by omega
    simp only [if_pos hneg, readPower, readSign, hdigits, digitsValue,
      Nat.ofDigitChars_ten_toDigits, habs, if_true]
  · have habs : (n.natAbs : Int) = n := by omega
    simp [if_neg hneg, readPower, readSign, hdigits, digitsValue,
      Nat.ofDigitChars_ten_toDigits, habs]

theorem readExponent_write {atEnd : Refusal} {rest : List Char} (hrest : EndsNumber rest) :
    readExponent atEnd (numeral.writeExponent ++ rest) =
      .ok (if numeral.exponent = 0 then none else some numeral.exponent, rest) := by
  rw [writeExponent]
  split
  · rw [List.nil_append]
    cases rest with
    | nil => rfl
    | cons c rest =>
      obtain ⟨_, _, he, hE⟩ := hrest c rfl
      rw [readExponent, if_neg (by simp [he, hE])]
  · rw [List.cons_append, List.cons_append, readExponent, if_pos (.inl rfl),
      readPower_write _ hrest.ends]

theorem readFraction_write {atEnd : Refusal} {rest : List Char} (h : numeral.Regular)
    (hrest : EndsNumber rest) :
    readFraction atEnd (numeral.writeFraction ++ (numeral.writeExponent ++ rest)) =
      .ok (if numeral.fraction = [] then none else some numeral.fraction,
        numeral.writeExponent ++ rest) := by
  obtain ⟨hends, hpoint⟩ := ends_writeExponent numeral hrest
  rw [writeFraction]
  split
  · rw [List.nil_append, readFraction]
    exact hpoint
  · next hne =>
    rw [List.cons_append, readFraction, readDigits_append h.digits_fraction hne hends]

theorem ends_writeFraction {rest : List Char} (hrest : EndsNumber rest) :
    Count.Ends (numeral.writeFraction ++ (numeral.writeExponent ++ rest)) := by
  rw [writeFraction]
  split
  · exact (ends_writeExponent numeral hrest).1
  · exact Count.ends_cons (by decide)

theorem readWhole_append {atEnd : Refusal} {rest : List Char} (h : numeral.Regular)
    (hrest : Count.Ends rest) :
    readWhole atEnd (numeral.whole ++ rest) = .ok (numeral.whole, rest) := by
  rw [readWhole, readDigits_append h.digits_whole h.whole_ne_nil hrest]
  split
  · next he => cases he
  · next d tail _ hd =>
    simp only [Except.ok.injEq, Prod.mk.injEq] at hd
    exact absurd (h.leading _ hd.1) (List.cons_ne_nil _ _)
  · next hd => exact hd.symm

/-- What stands in front of the digits before the point. -/
theorem head?_write_append (h : numeral.Regular) (rest : List Char) :
    ((numeral.write ++ rest).head? == some '-') = numeral.negative := by
  obtain ⟨c, tail, hcons⟩ := List.exists_cons_of_ne_nil h.whole_ne_nil
  have hc : c.isDigit = true := h.digits_whole c (by rw [hcons]; exact List.mem_cons_self)
  have hne : c ≠ '-' := by
    rintro rfl
    exact absurd hc (by decide)
  rw [write, hcons]
  cases numeral.negative with
  | true => rfl
  | false => simpa using hne

/-- A number is read back, and nothing of what follows it. -/
theorem readNumeral_write {atEnd : Refusal} {rest : List Char} (h : numeral.Regular)
    (hrest : EndsNumber rest) :
    readNumeral atEnd (numeral.write ++ rest) = .ok (numeral, rest) := by
  have hdigits : (if numeral.negative then (numeral.write ++ rest).tail
      else numeral.write ++ rest) =
      numeral.whole ++ (numeral.writeFraction ++ (numeral.writeExponent ++ rest)) := by
    rw [write]
    cases numeral.negative with
    | true => simp
    | false => simp
  have hplain : numeral.plain =
      ((if numeral.fraction = [] then none else some numeral.fraction).isNone &&
        (if numeral.exponent = 0 then none else some numeral.exponent).isNone) := by
    rw [Bool.eq_iff_iff, h.plain_iff]
    split <;> split <;> simp_all
  have hfraction :
      (if numeral.fraction = [] then none else some numeral.fraction).getD [] =
        numeral.fraction := by
    split <;> simp_all
  have hexponent :
      (if numeral.exponent = 0 then none else some numeral.exponent).getD 0 =
        numeral.exponent := by
    split <;> simp_all
  simp only [readNumeral, bind, Except.bind, head?_write_append h, hdigits,
    readWhole_append h (ends_writeFraction hrest), readFraction_write h hrest,
    readExponent_write hrest]
  rw [← hplain, hfraction, hexponent]

/-- A number begins with a sign or a digit. -/
theorem exists_write_eq_cons (h : numeral.Regular) :
    ∃ c tail, numeral.write = c :: tail ∧ startsNumber c = true := by
  obtain ⟨c, tail, hcons⟩ := List.exists_cons_of_ne_nil h.whole_ne_nil
  have hc : c.isDigit = true := h.digits_whole c (by rw [hcons]; exact List.mem_cons_self)
  rw [write, hcons]
  cases numeral.negative with
  | true => exact ⟨'-', _, rfl, rfl⟩
  | false => exact ⟨c, _, rfl, by rw [startsNumber, hc, Bool.or_true]⟩

/-- The characters of a number. -/
theorem of_mem_write (h : numeral.Regular) {c : Char} (hc : c ∈ numeral.write) :
    c.isDigit = true ∨ c ∈ ['-', '+', '.', 'e'] := by
  rw [write, writeFraction, writeExponent] at hc
  rcases List.mem_append.1 hc with hsign | hc
  · split at hsign
    · exact .inr (by simp_all)
    · cases hsign
  rcases List.mem_append.1 hc with hwhole | hc
  · exact .inl (h.digits_whole c hwhole)
  rcases List.mem_append.1 hc with hfraction | hexponent
  · split at hfraction
    · cases hfraction
    · rcases List.mem_cons.1 hfraction with rfl | hdigit
      · exact .inr (by decide)
      · exact .inl (h.digits_fraction c hdigit)
  · split at hexponent
    · cases hexponent
    · rcases List.mem_cons.1 hexponent with rfl | hpower
      · exact .inr (by decide)
      rcases List.mem_cons.1 hpower with rfl | hdigit
      · split
        · exact .inr (by decide)
        · exact .inr (by decide)
      · exact .inl (isDigit_of_mem_toDigits hdigit)

end Numeral

end Json

/-! ## Doubles -/

namespace Decimal

open Json

theorem digits_trim_pos {digits : Nat} {exponent : Int} (h : 0 < digits) :
    0 < (trim digits exponent).digits := by
  fun_induction trim digits exponent with
  | case1 digits exponent => exact h
  | case2 digits exponent hzero ih => exact ih (by omega)

end Decimal

namespace Dyadic

variable {x : Dyadic}

theorem scale_pos (grid : Int) : 0 < x.scale grid := by
  rw [scale, Nat.shiftLeft_eq]
  exact Nat.mul_pos (Nat.pow_pos (by decide)) (Nat.pow_pos (by decide))

/-- Zero does not round to a positive value. -/
theorem covers_zero (h : 0 < x.significand) (grid : Int) : x.covers grid 0 = false := by
  have hlow : 0 < (4 * x.significand - if x.narrowBelow then 1 else 2) * x.scale grid := by
    refine Nat.mul_pos ?_ (scale_pos grid)
    split <;> omega
  have hle : ¬ (4 * x.significand - if x.narrowBelow then 1 else 2) * x.scale grid ≤ 0 := by omega
  simp only [covers, Nat.mul_zero, Nat.zero_mul, decide_eq_false hle]
  simp

theorem pos_of_covers (h : 0 < x.significand) {grid : Int} {digits : Nat}
    (hc : x.covers grid digits = true) : 0 < digits := by
  refine Nat.pos_of_ne_zero ?_
  rintro rfl
  rw [covers_zero h] at hc
  cases hc

/-- A neighbour of a positive value that rounds to it is positive. -/
theorem onGrid?_pos (h : 0 < x.significand) {grid : Int} {digits : Nat}
    (hd : x.onGrid? grid = some digits) : 0 < digits := by
  simp only [onGrid?] at hd
  split at hd
  · cases hd
  · next hbelow _ => exact Option.some.inj hd ▸ pos_of_covers h hbelow
  · exact Option.some.inj hd ▸ Nat.succ_pos _
  · next hbelow _ =>
    have hpos := pos_of_covers h hbelow
    split at hd
    · exact Option.some.inj hd ▸ hpos
    · split at hd
      · exact Option.some.inj hd ▸ Nat.succ_pos _
      · exact Option.some.inj hd ▸ Nat.add_pos_left hpos _

theorem digits_exactDecimal_pos (h : 0 < x.significand) : 0 < x.exactDecimal.digits := by
  rw [exactDecimal, Nat.shiftLeft_eq]
  exact Nat.mul_pos (Nat.mul_pos h (Nat.pow_pos (by decide))) (Nat.pow_pos (by decide))

end Dyadic

/-- The digits that identify a positive value are not zero. -/
theorem Decimal.digits_shortest_pos {x : Dyadic} (h : 0 < x.significand) :
    0 < (shortest x).digits := by
  rw [shortest]
  apply digits_trim_pos
  cases hfound : (List.range 17).findSome? fun (i : Nat) =>
      (x.onGrid? (x.leadingExponent - i)).map fun digits =>
        (⟨digits, x.leadingExponent - i⟩ : Decimal) with
  | none => exact Dyadic.digits_exactDecimal_pos h
  | some decimal =>
    obtain ⟨i, _, hi⟩ := List.exists_of_findSome?_eq_some hfound
    obtain ⟨digits, hdigits, rfl⟩ := Option.map_eq_some_iff.1 hi
    exact Dyadic.onGrid?_pos h hdigits

theorem Binary64.significand_magnitude_pos {x : Binary64} (h : x.isZero = false) :
    0 < x.magnitude.significand := by
  rw [magnitude]
  split
  · next he =>
    have hfraction : x.fraction ≠ 0 := by
      intro hf
      rw [isZero, he, hf] at h
      cases h
    exact Nat.pos_of_ne_zero hfraction
  · exact Nat.add_pos_left (by decide) _

/-- Whether a text is a number without a sign that has a fraction or an exponent. -/
def Json.IsDecimal (text : List Char) : Prop :=
  ∃ numeral : Numeral,
    numeral.Regular ∧ numeral.plain = false ∧ numeral.negative = false ∧ numeral.write = text

theorem Json.isDecimal_fraction (whole fraction : List Char)
    (hwhole : ∀ c ∈ whole, c.isDigit = true) (hne : whole ≠ [])
    (hleading : ∀ rest, whole = '0' :: rest → rest = [])
    (hfraction : ∀ c ∈ fraction, c.isDigit = true) (hpoint : fraction ≠ []) :
    IsDecimal (whole ++ '.' :: fraction) := by
  refine ⟨⟨false, whole, fraction, false, 0⟩, ⟨hwhole, hne, hleading, hfraction, ?_⟩, rfl, rfl, ?_⟩
  · simp [hpoint]
  · simp [Numeral.write, Numeral.writeFraction, Numeral.writeExponent, hpoint]

namespace Decimal

open Json

theorem isDigit_of_mem_zeros {count : Nat} {c : Char} (h : c ∈ List.replicate count '0') :
    c.isDigit = true := by
  rw [List.eq_of_mem_replicate h]
  rfl

theorem isDecimal_writePlain {digits : List Char} (hdigits : ∀ c ∈ digits, c.isDigit = true)
    (hne : digits ≠ []) (hleading : ∀ rest, digits ≠ '0' :: rest) (whole : Int) :
    IsDecimal (writePlain digits whole) := by
  rw [writePlain]
  split
  · refine isDecimal_fraction ['0'] _ (by simp) (by simp) (by simp) ?_ (by simp [hne])
    intro c hc
    rcases List.mem_append.1 hc with hc | hc
    · exact isDigit_of_mem_zeros hc
    · exact hdigits c hc
  obtain ⟨d, tail, rfl⟩ := List.exists_cons_of_ne_nil hne
  have hd : d ≠ '0' := by
    rintro rfl
    exact hleading tail rfl
  split
  · refine isDecimal_fraction _ ['0'] ?_ (by simp) ?_ (by simp) (by simp)
    · intro c hc
      rcases List.mem_append.1 hc with hc | hc
      · exact hdigits c hc
      · exact isDigit_of_mem_zeros hc
    · intro rest h
      exact absurd (List.cons.inj h).1 hd
  · next hpos hlt =>
    refine isDecimal_fraction _ _ (fun c hc => hdigits c (List.mem_of_mem_take hc)) ?_ ?_
      (fun c hc => hdigits c (List.mem_of_mem_drop hc)) ?_
    · intro h
      rcases List.take_eq_nil_iff.1 h with hwhole | hnil
      · omega
      · cases hnil
    · intro rest h
      obtain ⟨n, hn⟩ : ∃ n, whole.toNat = n + 1 := ⟨whole.toNat - 1, by omega⟩
      rw [hn, List.take_succ_cons] at h
      exact absurd (List.cons.inj h).1 hd
    · intro h
      exact hlt (List.drop_eq_nil_iff.1 h)

theorem isDecimal_writeScientific {digits : List Char} (hdigits : ∀ c ∈ digits, c.isDigit = true)
    (hne : digits ≠ []) {exponent : Int} (hexponent : exponent ≠ 0) :
    IsDecimal (writeScientific digits exponent) := by
  obtain ⟨d, tail, rfl⟩ := List.exists_cons_of_ne_nil hne
  rw [List.forall_mem_cons] at hdigits
  refine ⟨⟨false, [d], tail, false, exponent⟩,
    ⟨by simpa using hdigits.1, by simp, by simp, hdigits.2, by simp [hexponent]⟩, rfl, rfl, ?_⟩
  cases tail with
  | nil =>
    simp [Numeral.write, Numeral.writeFraction, Numeral.writeExponent, writeScientific, hexponent]
  | cons d tail =>
    simp [Numeral.write, Numeral.writeFraction, Numeral.writeExponent, writeScientific, hexponent]

/-- A positive decimal is written as a number that is no integer. -/
theorem isDecimal_write {d : Decimal} (h : 0 < d.digits) : IsDecimal d.write := by
  have hdigits : ∀ c ∈ Nat.toDigits 10 d.digits, c.isDigit = true :=
    fun c hc => isDigit_of_mem_toDigits hc
  have hne : Nat.toDigits 10 d.digits ≠ [] := Nat.toDigits_ne_nil
  rw [write]
  split
  · refine isDecimal_writePlain hdigits hne ?_ _
    intro rest hzero
    have := eq_zero_of_toDigits_eq hzero
    omega
  · next hlead =>
    -- An exponent of zero is among those with which a number is written out.
    refine isDecimal_writeScientific hdigits hne ?_
    rw [plainFrom, plainTo] at hlead
    omega

end Decimal

/-- A double is written as a number that is no integer, whatever its bits. -/
theorem Binary64.exists_write_eq (x : Binary64) :
    ∃ numeral : Json.Numeral,
      numeral.Regular ∧ numeral.plain = false ∧ numeral.write = x.write := by
  have hunsigned : Json.IsDecimal
      (if x.isZero then ['0', '.', '0'] else (Decimal.shortest x.magnitude).write) := by
    split
    · exact Json.isDecimal_fraction ['0'] ['0'] (by simp) (by simp)
        (by simp) (by simp) (by simp)
    · next hzero =>
      refine Decimal.isDecimal_write (Decimal.digits_shortest_pos ?_)
      exact significand_magnitude_pos (Bool.eq_false_iff.2 hzero)
  obtain ⟨numeral, hregular, hplain, hnegative, hwrite⟩ := hunsigned
  rw [write, ← hwrite]
  -- A sign in front makes the same number negative.
  split
  · refine ⟨{ numeral with negative := true }, { hregular with }, hplain, ?_⟩
    simp [Json.Numeral.write, Json.Numeral.writeFraction, Json.Numeral.writeExponent, hnegative]
  · exact ⟨numeral, hregular, hplain, rfl⟩

/-! ## Decoded numbers -/

namespace PlainData

open Json

/-- What a number says. -/
def ofNumeral (numeral : Numeral) : PlainData :=
  if numeral.plain then .integer (integerOf numeral)
  else .decimal (String.ofList numeral.write)

theorem readNumber_write {numeral : Numeral} (h : numeral.Regular) {rest : List Char}
    (hrest : EndsNumber rest) :
    readNumber (numeral.write ++ rest) = .ok (ofNumeral numeral, rest) := by
  have htoken : (numeral.write ++ rest).take ((numeral.write ++ rest).length - rest.length) =
      numeral.write := by simp
  rw [readNumber, Numeral.readNumeral_write h hrest]
  dsimp only
  rw [htoken, ofNumeral]
  split
  · rfl
  · rfl

end PlainData

/-- The plain data of a number: an integer as it is, a double as its digits, and null for a double
that is no number or infinite. -/
def Number.plain : Number → PlainData
  | .unsigned n => .integer n.toNat
  | .signed n => .integer n.toInt
  | .float x => if x.isNaN || x.isInfinite then .null else .decimal (String.ofList x.write)

theorem Json.ofNat_eq_ofInt (n : Nat) : Json.ofNat n = Json.ofInt n := by
  have hpos : ¬ (n : Int) < 0 := by omega
  rw [ofNat, ofInt, if_neg hpos, Int.natAbs_natCast]

theorem Json.exists_ofInt_eq (n : Int) :
    ∃ numeral : Numeral, numeral.Regular ∧ Json.ofInt n = .number (String.ofList numeral.write) ∧
      PlainData.ofNumeral numeral = .integer n := by
  refine ⟨⟨decide (n < 0), Nat.toDigits 10 n.natAbs, [], true, 0⟩,
    ⟨fun c hc => isDigit_of_mem_toDigits hc, Nat.toDigits_ne_nil, ?_, by simp, by simp⟩, ?_, ?_⟩
  · intro rest h
    have hzero := eq_zero_of_toDigits_eq h
    dsimp only at h
    rw [hzero] at h
    exact (List.cons.inj h).2.symm
  · by_cases hneg : n < 0
    · simp [ofInt, Numeral.write, Numeral.writeFraction, Numeral.writeExponent, hneg]
    · simp [ofInt, Numeral.write, Numeral.writeFraction, Numeral.writeExponent, hneg]
  · have hvalue : digitsValue (Nat.toDigits 10 n.natAbs) = n.natAbs := by
      rw [digitsValue, Nat.ofDigitChars_ten_toDigits]
    have hsign : (if n < 0 then -(n.natAbs : Int) else n.natAbs) = n := by omega
    simp only [PlainData.ofNumeral, PlainData.integerOf, if_true, hvalue, decide_eq_true_eq, hsign]

/-- The JSON value of a number is null, or a number that says the same. -/
theorem Number.toJson_cases (n : Number) :
    n.toJson = .null ∧ n.plain = .null ∨
      ∃ numeral : Json.Numeral, numeral.Regular ∧
        n.toJson = .number (String.ofList numeral.write) ∧ n.plain = .ofNumeral numeral := by
  cases n with
  | unsigned n =>
    obtain ⟨numeral, hregular, htoken, hvalue⟩ := Json.exists_ofInt_eq n.toNat
    exact .inr ⟨numeral, hregular, (Json.ofNat_eq_ofInt _).trans htoken, hvalue.symm⟩
  | signed n =>
    obtain ⟨numeral, hregular, htoken, hvalue⟩ := Json.exists_ofInt_eq n.toInt
    exact .inr ⟨numeral, hregular, htoken, hvalue.symm⟩
  | float x =>
    rw [toJson, plain, Json.ofBinary64]
    split
    · exact .inl ⟨rfl, rfl⟩
    · obtain ⟨numeral, hregular, hplain, hwrite⟩ := x.exists_write_eq
      refine .inr ⟨numeral, hregular, by rw [hwrite], ?_⟩
      rw [PlainData.ofNumeral, hplain, hwrite]
      rfl

end BinaryLayout
