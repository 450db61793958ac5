import BinaryLayout.Proofs.Bytewise.Agreement
import BinaryLayout.Proofs.Bytewise.Scanner

/-!
# Counting turn by turn

Behind a code a scanner takes one digit at a turn.  It multiplies the count that it has by ten and
adds the digit, and cuts off the product and the sum, each of them, at the greatest count.

There are two groups.

* Turns.  What a scanner has behind some digits is their value, cut off once (`Count.capped`), and
  one more digit leaves it so (`moreCount_capped`).  As the value only grows, it does not matter
  where on the way it got too great.
* Loops.  So the loop ends behind the last digit with the value of all of them, cut off once
  (`ends_counting`).
-/

namespace BinaryLayout.Bytewise

open Utf8 (encode)

namespace Scanner

/-! ## Turns -/

/-- To multiply and to add with a cut each comes to one cut of the value with one more digit. -/
theorem moreCount_capped (digits : List Char) (d : Char) :
    moreCount (Count.capped digits) d = Count.capped (digits ++ [d]) := by
  have hvalue : (Count.capped digits).getD 0 =
      min (Nat.ofDigitChars 10 digits 0) Count.greatest := by
    cases digits <;> rfl
  have hmore : digits ++ [d] ≠ [] := List.append_ne_nil_of_right_ne_nil _ (List.cons_ne_nil d [])
  rw [moreCount, hvalue, Count.add_mul_min, Count.capped, if_neg hmore, Nat.ofDigitChars_append]
  rfl

variable {source : List Char} {position : Nat} (name : Option String) (code : Code)

/-- A digit is taken. -/
theorem turn_of_isDigit {b : UInt8} (hb : (encode source)[position]? = some b)
    (h : (asChar b).isDigit = true) (digits : List Char) :
    turn source ⟨.counting name code (Count.capped digits), position⟩ =
      (⟨.counting name code (Count.capped (digits ++ [asChar b])), position + 1⟩, none) := by
  rw [turn]
  dsimp only
  rw [hb]
  dsimp only
  rw [if_pos h, moreCount_capped]

/-- What is no digit ends the count. -/
theorem turn_of_not_isDigit (h : ∀ b ∈ (encode source)[position]?, (asChar b).isDigit = false)
    (count : Option Nat) :
    turn source ⟨.counting name code count, position⟩ =
      (⟨.counting name code count, position⟩, some (.ok (some ⟨name, code, count⟩))) := by
  rw [turn]
  dsimp only
  cases hb : (encode source)[position]? with
  | none => rfl
  | some b => exact if_neg (Bool.eq_false_iff.1 (h b hb))

/-! ## Loops -/

/-- From behind some digits the loop takes those that follow, one at a turn, and ends with the value
of all of them. -/
theorem ends_counting (digits : List Char) {run : List UInt8}
    (hrun : ((encode source).drop position).takeWhile (fun b => (asChar b).isDigit) = run) :
    let count := Count.capped (digits ++ run.map asChar)
    Turn.Ends (turn source) ⟨.counting name code (Count.capped digits), position⟩ (run.length + 1)
      ⟨.counting name code count, position + run.length⟩ (.ok (some ⟨name, code, count⟩)) := by
  -- The digits that are still to come, with those already taken in front of them.
  induction run generalizing digits position with
  | nil =>
    have hstop : ∀ b ∈ (encode source)[position]?, (asChar b).isDigit = false := by
      intro b hb
      rw [drop_of_getElem? hb, List.takeWhile_cons] at hrun
      split at hrun
      · cases hrun
      · next hdigit => exact Bool.eq_false_iff.2 hdigit
    rw [List.map_nil, List.append_nil]
    exact .last (turn_of_not_isDigit name code hstop _)
  | cons b run ih =>
    cases hb : (encode source)[position]? with
    | none =>
      rw [drop_of_getElem?_none hb] at hrun
      cases hrun
    | some d =>
      rw [drop_of_getElem? hb, List.takeWhile_cons] at hrun
      split at hrun
      · next hdigit =>
        obtain ⟨rfl, hrest⟩ := List.cons.inj hrun
        have hends := ih (digits ++ [asChar d]) hrest
        rw [List.append_assoc, Nat.add_assoc, Nat.add_comm 1] at hends
        exact .more (turn_of_isDigit name code hb hdigit digits) hends
      · cases hrun

end Scanner

/-! ## Counts -/

/-- What is left when the first elements with a property have been taken. -/
theorem drop_length_takeWhile {α : Type} (p : α → Bool) (l : List α) :
    l.drop (l.takeWhile p).length = l.dropWhile p := by
  calc
    l.drop (l.takeWhile p).length
      = (l.takeWhile p ++ l.dropWhile p).drop (l.takeWhile p).length := by
        rw [List.takeWhile_append_dropWhile]
    _ = l.dropWhile p := List.drop_left

/-- **A count is what its digits stand for, and `2 ^ 64 - 1` if that is less.**

From any byte of a text, even inside a character or behind the end, a scanner takes the digits that
come first, all of them and nothing else, one at a turn, and ends behind the last one.  If there are
none there is no count.  If there are some, then however many they are the count is their value in
decimal, cut off once, though it was multiplied and added to with a cut each time.  A reader of
characters that stands there gets the same.

So each number below `2 ^ 64` is read from all its spellings, with any number of zeros in front, and
what is less than the greatest count is read from no other digits. -/
theorem counts_cases (source : String) (position : Nat) (name : Option String) (code : Code) :
    let ahead := source.toUTF8.data.toList.drop position
    let run := ahead.takeWhile fun b => (asChar b).isDigit
    let digits := run.map asChar
    let count := Count.capped digits
    Turn.Ends (Scanner.turn source.toList) ⟨.counting name code none, position⟩ (run.length + 1)
        ⟨.counting name code count, position + run.length⟩ (.ok (some ⟨name, code, count⟩)) ∧
      readCount ahead = (count, ahead.drop run.length) ∧
      (∀ text, encode text = ahead → Count.read text = (count, text.drop run.length)) ∧
      (∀ n < 2 ^ 64, Count.Spells digits n → count = some n) ∧
      ∀ n < 2 ^ 64 - 1, count = some n → Count.Spells digits n := by
  intro ahead run digits count
  have hahead : (encode source.toList).drop position = ahead := by
    rw [← toUTF8_eq_encode]
  have hdigits : ∀ c ∈ digits, c.isDigit = true := by
    intro c hc
    obtain ⟨b, hb, rfl⟩ := List.mem_map.1 hc
    exact List.all_eq_true.1 List.all_takeWhile b hb
  refine ⟨Scanner.ends_counting name code [] (hahead ▸ rfl), ?_, ?_, ?_, ?_⟩
  · rw [readCount, drop_length_takeWhile, ← Count.capped_eq]
  · rintro text htext
    have hsame : digits = text.takeWhile Char.isDigit := by
      rw [← (takeWhile_encode (fun _ => isDigit_of_le) text).1, htext]
    have hlength : run.length = (text.takeWhile Char.isDigit).length := by
      rw [← hsame, List.length_map]
    rw [Count.read, hlength, drop_length_takeWhile, ← hsame, ← Count.capped_eq]
  · exact fun n hn => Count.capped_of_spells hdigits hn
  · exact fun n hn => Count.spells_of_capped hdigits hn

/-- The number below the greatest count, with a zero in front. -/
theorem counts_cases_below_greatest :
    let source := "C018446744073709551614]"
    let digits := "018446744073709551614".toList
    encode "018446744073709551614]".toList = source.toUTF8.data.toList.drop 1 ∧
      2 ^ 64 - 2 < 2 ^ 64 - 1 ∧ Count.Spells digits (2 ^ 64 - 2) ∧
      Turn.Ends (Scanner.turn source.toList) ⟨.counting none (.ofChar 'C') none, 1⟩ 22
        ⟨.counting none (.ofChar 'C') (some (2 ^ 64 - 2)), 22⟩
        (.ok (some ⟨none, .ofChar 'C', some (2 ^ 64 - 2)⟩)) ∧
      Count.read "018446744073709551614]".toList = (some (2 ^ 64 - 2), [']']) := by
  intro source digits
  have hencode : encode "018446744073709551614]".toList = source.toUTF8.data.toList.drop 1 := by
    decide +kernel
  have hrun : ((source.toUTF8.data.toList.drop 1).takeWhile fun b => (asChar b).isDigit).map asChar
      = digits := by
    decide +kernel
  have hspells : Count.Spells digits (2 ^ 64 - 2) := ⟨1, by decide +kernel⟩
  obtain ⟨hends, _, hread, hcount, hback⟩ := counts_cases source 1 none (.ofChar 'C')
  have hvalue := hcount (2 ^ 64 - 2) (by decide) (hrun ▸ hspells)
  have hlength : ((source.toUTF8.data.toList.drop 1).takeWhile fun b =>
      (asChar b).isDigit).length = 21 := by
    decide +kernel
  rw [hvalue, hlength] at hends
  have hleft := hread _ hencode
  rw [hvalue, hlength] at hleft
  refine ⟨hencode, by decide, hrun ▸ hback _ (by decide) hvalue, hends, hleft.trans ?_⟩
  decide +kernel

/-- The number behind the greatest count is cut off. -/
example : Count.read "0018446744073709551616]".toList = (some (2 ^ 64 - 1), [']']) := by
  decide +kernel

end BinaryLayout.Bytewise
