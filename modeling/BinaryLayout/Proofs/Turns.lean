import Mathlib.Logic.Relation

/-!
# Loops turn by turn

A loop is a function that takes one turn: it gives the place behind the turn, and the result if the
loop ends with it.  Nothing says that a loop ends.  It does if something shrinks with every turn
that goes on (`exists_ends`), and then with one result only (`Ends.unique`).
-/

namespace BinaryLayout

/-- One turn of a loop, with the result if it is the last one. -/
abbrev Turn (place result : Type) := place → place × Option result

namespace Turn

variable {place result : Type}

/-- The loop ends after so many turns, at a place and with a result. -/
inductive Ends (turn : Turn place result) : place → Nat → place → result → Prop
  | last {s last : place} {a : result} (h : turn s = (last, some a)) : Ends turn s 1 last a
  | more {s next last : place} {turns : Nat} {a : result} (h : turn s = (next, none))
      (hmore : Ends turn next turns last a) : Ends turn s (turns + 1) last a

/-- Turns lead from one place to another. -/
def Reaches (turn : Turn place result) : place → place → Prop :=
  Relation.ReflTransGen fun s next => (turn s).1 = next

variable {turn : Turn place result} {s last : place} {turns : Nat} {a : result}

/-- A loop ends if something shrinks with every turn that goes on. -/
theorem exists_ends (turn : Turn place result) (size : place → Nat)
    (h : ∀ s next, turn s = (next, none) → size next < size s) (s : place) :
    ∃ turns last a, Ends turn s turns last a ∧ turns ≤ size s + 1 := by
  induction hn : size s using Nat.strongRecOn generalizing s with
  | ind n ih =>
    rcases hturn : turn s with ⟨next, _ | a⟩
    · have hlt := h s next hturn
      obtain ⟨turns, last, a, hends, hle⟩ := ih (size next) (hn ▸ hlt) next rfl
      exact ⟨turns + 1, last, a, .more hturn hends, by omega⟩
    · exact ⟨1, next, a, .last hturn, by omega⟩

/-- A loop ends in one way only. -/
theorem Ends.unique {turns' : Nat} {last' : place} {a' : result} (h : Ends turn s turns last a)
    (h' : Ends turn s turns' last' a') : turns = turns' ∧ last = last' ∧ a = a' := by
  induction h generalizing turns' with
  | last h =>
    cases h' with
    | last h' =>
      cases h.symm.trans h'
      exact ⟨rfl, rfl, rfl⟩
    | more h' _ => cases h.symm.trans h'
  | more h _ ih =>
    cases h' with
    | last h' => cases h.symm.trans h'
    | more h' hmore =>
      cases h.symm.trans h'
      obtain ⟨rfl, rfl, rfl⟩ := ih hmore
      exact ⟨rfl, rfl, rfl⟩

/-- What every turn keeps holds wherever turns lead. -/
theorem Reaches.keeps {holds : place → Prop} (hturn : ∀ s, holds s → holds (turn s).1)
    {next : place} (h : Reaches turn s next) (hs : holds s) : holds next := by
  induction h with
  | refl => exact hs
  | tail _ hstep ih => exact hstep ▸ hturn _ ih

/-- The place where a loop ends is one that turns lead to. -/
theorem Ends.reaches (h : Ends turn s turns last a) : Reaches turn s last := by
  induction h with
  | last h => exact .single (congrArg Prod.fst h)
  | more h _ ih => exact .head (congrArg Prod.fst h) ih

/-- What every turn that goes on leaves the same is there when the last turn comes. -/
theorem Ends.exists_turn {β : Type} (h : Ends turn s turns last a) (value : place → β)
    (hmore : ∀ s next, turn s = (next, none) → value s = value next) :
    ∃ final, turn final = (last, some a) ∧ value s = value final := by
  induction h with
  | last h => exact ⟨_, h, rfl⟩
  | more h _ ih =>
    obtain ⟨final, hfinal, hvalue⟩ := ih
    exact ⟨final, hfinal, (hmore _ _ h).trans hvalue⟩

end Turn

end BinaryLayout
