import BinaryLayout.Field

/-!
# Bytes at a place of a payload

What the three ways of looking at a payload find where it is known which bytes stand there.

There are three groups.

* Places.  `Payload.HoldsAt` says that given bytes stand at a position, whatever stands in front of
  them and behind them.  `HoldsAt.append` takes such bytes apart.
* Looks.  `HoldsAt.take?`, `HoldsAt.window` and `HoldsAt.segment` are one law for each way of
  looking.  The last two ask for a payload whose size is a position: only there no move stops early.
* Readings.  `Recovers` says that a reading takes given bytes for a value and stops behind them.
  `Recovers.readTimes` carries it from one reading to several.
-/

namespace BinaryLayout

namespace Payload

variable {bytes : Payload} {p : Int} {found : List UInt8}

/-! ## Places -/

/-- Whether the payload holds these bytes from `p` on. -/
def HoldsAt (bytes : Payload) (p : Int) (found : List UInt8) : Prop :=
  ∃ before after, bytes.toList = before ++ found ++ after ∧ p = before.length

namespace HoldsAt

theorem append {more : List UInt8} (h : bytes.HoldsAt p (found ++ more)) :
    bytes.HoldsAt p found ∧ bytes.HoldsAt (p + found.length) more := by
  obtain ⟨before, after, hbytes, rfl⟩ := h
  refine ⟨⟨before, more ++ after, ?_, rfl⟩, ⟨before ++ found, after, ?_, ?_⟩⟩
  · rw [hbytes]
    simp only [List.append_assoc]
  · rw [hbytes]
    simp only [List.append_assoc]
  · rw [List.length_append, Int.natCast_add]

theorem bounds (h : bytes.HoldsAt p found) : 0 ≤ p ∧ p + found.length ≤ bytes.size := by
  obtain ⟨before, after, hbytes, rfl⟩ := h
  have hsize := congrArg List.length hbytes
  rw [Array.length_toList, List.length_append, List.length_append] at hsize
  omega

theorem toList_extract (h : bytes.HoldsAt p found) :
    (bytes.extract p.toNat (p.toNat + found.length)).toList = found := by
  obtain ⟨before, after, hbytes, rfl⟩ := h
  rw [Array.toList_extract, hbytes, Int.toNat_natCast, List.append_assoc, List.extract_eq_take_drop,
    List.drop_left, Nat.add_sub_cancel_left, List.take_left]

/-! ## Looks -/

/-- Bytes that are there are found. -/
theorem take? (h : bytes.HoldsAt p found) : bytes.take? p found.length = some found := by
  rw [Payload.take?, if_pos h.bounds, h.toList_extract]

/-- In a payload whose size is a position, a move over bytes that are there goes all the way. -/
theorem advance (hsize : (bytes.size : Int) ≤ Position.highest) (h : bytes.HoldsAt p found) :
    Position.advance p found.length = p + found.length := by
  obtain ⟨hlow, hhigh⟩ := h.bounds
  have hstop : p + found.length ≤ Position.highest := Int.le_trans hhigh hsize
  have hlength : (found.length : Int) ≤ Position.highest := Int.le_trans (by omega) hstop
  have hlowest : Position.lowest ≤ p + found.length :=
    Int.le_trans (b := 0) (by decide) (by omega)
  rw [Position.advance, Position.distance, Int.min_eq_left hlength, Position.clamp,
    Int.min_eq_left hstop, Int.max_eq_right hlowest]

/-- A window on bytes that are there shows them all. -/
theorem window (hsize : (bytes.size : Int) ≤ Position.highest) (h : bytes.HoldsAt p found) :
    bytes.window p found.length = found := by
  have hstop : (p + found.length).toNat = p.toNat + found.length := by
    have hlow := h.bounds.1
    omega
  rw [Payload.window, h.advance hsize, hstop, h.toList_extract]

end HoldsAt

/-- The search for a zero byte passes over bytes that are not zero. -/
theorem zeroIndex_append (before found after : List UInt8) (hzero : 0 ∉ found) :
    zeroIndex (before ++ (found ++ 0 :: after)).toArray before.length =
      before.length + found.length := by
  induction found generalizing before with
  | nil =>
    rw [zeroIndex, dif_pos (by simp), if_pos (by simp)]
    rfl
  | cons b found ih =>
    rw [List.mem_cons, not_or] at hzero
    have hsplit :
        before ++ (b :: found ++ 0 :: after) = (before ++ [b]) ++ (found ++ 0 :: after) := by
      simp
    have hnext := ih (before ++ [b]) hzero.2
    rw [List.length_append, List.length_singleton, ← hsplit] at hnext
    rw [zeroIndex, dif_pos (by simp), if_neg (by simpa using Ne.symm hzero.1), hnext,
      List.length_cons]
    omega

/-- Up to a zero byte that is there, a segment holds what stands in front of it, and the zero byte
is passed over. -/
theorem HoldsAt.segment (hsize : (bytes.size : Int) ≤ Position.highest)
    (h : bytes.HoldsAt p (found ++ [0])) (hzero : 0 ∉ found) :
    bytes.segment p = (found, p + (found ++ [0]).length) := by
  obtain ⟨hlow, hhigh⟩ := h.bounds
  have hstop : zeroIndex bytes p.toNat = p.toNat + found.length := by
    obtain ⟨before, after, hbytes, rfl⟩ := h
    have hlist : before ++ (found ++ 0 :: after) = bytes.toList := by
      rw [hbytes]
      simp
    have hindex := zeroIndex_append before found after hzero
    rw [hlist, Array.toArray_toList] at hindex
    rw [Int.toNat_natCast]
    exact hindex
  have hlength : (found ++ [0]).length = found.length + 1 := List.length_append
  have hpast : p.toNat + found.length + 1 - p.toNat = (found ++ [0]).length := by
    rw [hlength]
    omega
  have hinside : 0 ≤ p ∧ p ≤ bytes.size := ⟨hlow, by omega⟩
  have hfound : p.toNat + found.length < bytes.size := by omega
  rw [Payload.segment, if_pos hinside]
  dsimp only
  rw [hstop, if_pos hfound, hpast, h.advance hsize, h.append.1.toList_extract]

end Payload

/-! ## Readings -/

/-- Whether a reading takes these bytes for `a`: wherever the payload holds them it gives `a` and
ends behind them. -/
def Recovers {α : Type} (bytes : Payload) (reading : Position → α × Position) (a : α)
    (found : List UInt8) : Prop :=
  ∀ p, bytes.HoldsAt p found → reading p = (a, p + found.length)

namespace Recovers

variable {α : Type} {bytes : Payload} {reading : Position → α × Position}

/-- What is done with the value is done with the value that is recovered. -/
theorem map {β : Type} (f : α → β) {a : α} {found : List UInt8}
    (h : Recovers bytes reading a found) :
    Recovers bytes (fun p => (f (reading p).1, (reading p).2)) (f a) found := by
  intro p hp
  dsimp only
  rw [h p hp]

/-- Several readings take the bytes of several values for these values. -/
theorem readTimes {encode : α → List UInt8} {values : List α}
    (h : ∀ a ∈ values, Recovers bytes reading a (encode a)) :
    Recovers bytes (readTimes reading values.length) values (values.flatMap encode) := by
  induction values with
  | nil =>
    intro p _
    rw [List.length_nil, readTimes_zero, List.flatMap_nil, List.length_nil]
    simp
  | cons a values ih =>
    rw [List.forall_mem_cons] at h
    intro p hp
    rw [List.flatMap_cons] at hp ⊢
    obtain ⟨hfirst, hlater⟩ := hp.append
    have hread := h.1 p hfirst
    have hrest := ih h.2 _ hlater
    rw [List.length_cons, readTimes_succ, hread, hrest, List.length_append, Int.natCast_add,
      Int.add_assoc]

end Recovers

end BinaryLayout
