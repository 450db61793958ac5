import BinaryLayout.NumberField
import BinaryLayout.TextField
import BinaryLayout.Datum

/-!
# Fields

A field is what a layout does at one place of the payload, apart from how often or how widely it
does it: that is its count, which repeats numbers and terminated texts, is the width of other
texts, and is the distance of a move.
-/

namespace BinaryLayout

/-- A move of the position that reads nothing. -/
inductive Move where
  | forward
  | backward
  /-- To a place counted from the start of the payload. -/
  | absolute
deriving DecidableEq, Repr

/-- The position after a move over `n` bytes. -/
def Move.apply : Move → Nat → Position → Position
  | .forward, n, p => p.advance n
  | .backward, n, p => p.retreat n
  | .absolute, n, _ => Position.ofStart n

/-- What a layout does at one place. -/
inductive Field where
  | number (field : NumberField)
  | text (field : TextField)
  /-- A text up to the next zero byte. -/
  | terminated
  | move (step : Move)
deriving DecidableEq, Repr

/-- Takes `n` readings one after the other, each from the position where the one before ended. -/
def readTimes {α : Type} (reading : Position → α × Position) (n : Nat) (p : Position) :
    List α × Position :=
  go n p []
where
  /-- Takes `n` more readings after those in `taken`, which stand last first. -/
  go : Nat → Position → List α → List α × Position
    | 0, p, taken => (taken.reverse, p)
    | n + 1, p, taken =>
      let (a, q) := reading p
      go n q (a :: taken)

section

variable {α : Type} (reading : Position → α × Position)

theorem readTimes_go (n : Nat) (p : Position) (taken : List α) :
    readTimes.go reading n p taken =
      (taken.reverse ++ (readTimes reading n p).1, (readTimes reading n p).2) := by
  unfold readTimes
  induction n generalizing p taken with
  | zero => simp [readTimes.go]
  | succ n ih =>
    simp only [readTimes.go]
    rw [ih, ih (reading p).2 [(reading p).1]]
    simp

@[simp] theorem readTimes_zero (p : Position) : readTimes reading 0 p = ([], p) := rfl

theorem readTimes_succ (n : Nat) (p : Position) :
    readTimes reading (n + 1) p =
      ((reading p).1 :: (readTimes reading n (reading p).2).1,
        (readTimes reading n (reading p).2).2) := by
  simp only [readTimes, readTimes.go]
  rw [readTimes_go]
  rfl

/-- Each reading gives one result. -/
@[simp] theorem length_readTimes (n : Nat) (p : Position) :
    (readTimes reading n p).1.length = n := by
  induction n generalizing p with
  | zero => rfl
  | succ n ih => simp [readTimes_succ, ih]

/-- What one reading gives from every position, each of several readings gives. -/
theorem forall_mem_readTimes {holds : α → Prop} (h : ∀ q, holds (reading q).1) (n : Nat)
    (p : Position) : ∀ a ∈ (readTimes reading n p).1, holds a := by
  induction n generalizing p with
  | zero => simp
  | succ n ih =>
    rw [readTimes_succ]
    exact List.forall_mem_cons.2 ⟨h p, ih (reading p).2⟩

theorem readTimes_map {β : Type} (f : α → β) (n : Nat) (p : Position) :
    readTimes (fun q => (f (reading q).1, (reading q).2)) n p =
      ((readTimes reading n p).1.map f, (readTimes reading n p).2) := by
  induction n generalizing p with
  | zero => rfl
  | succ n ih => simp [readTimes_succ, ih]

end

namespace Field

/-- Reads a field with its count at `p`: the data it yields, and the position behind it. -/
def read (field : Field) (count : Nat) (bytes : Payload) (p : Position) :
    List Datum × Position :=
  match field with
  | .number field =>
    readTimes (fun p => let (n, q) := field.read bytes p; (.number n, q)) count p
  | .text field =>
    let (s, q) := field.read count bytes p
    ([.text s], q)
  | .terminated =>
    readTimes (fun p => let (s, q) := readTerminated bytes p; (.text s, q)) count p
  | .move step => ([], step.apply count p)

/-- The number of data that the field yields with a count. -/
def yield (field : Field) (count : Nat) : Nat :=
  match field with
  | .number _ => count
  | .text _ => 1
  | .terminated => count
  | .move _ => 0

/-- The number of data is the same wherever the field is read. -/
@[simp] theorem length_read (field : Field) (count : Nat) (bytes : Payload) (p : Position) :
    (field.read count bytes p).1.length = field.yield count := by
  cases field <;> simp [read, yield]

end Field

end BinaryLayout
