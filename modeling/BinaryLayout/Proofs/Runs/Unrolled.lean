import BinaryLayout.Proofs.Accounting.Values
import BinaryLayout.Proofs.Layout.Writing

/-!
# Repeats one after the other

A number, a terminated text or a group with a count is read so many times in a row.  At top level
and in arrays, where the data stand in a sequence, two of them with smaller counts are the same.
Directly inside a record they are not: what one field yields is packed under its name, and a second
field of that name takes its place.

There are four groups.

* Places.  `Layout.Unrolls` has a rule for each way to split a count and for each way to come to
  the place.
* Readings in a row.  `Field.read_add` reads a sum of counts.
* Runs.  `Unrolls.run_agrees` is by induction over the way to the place: around it the data of
  arrays and the parts of records stay the same.
* Texts.  The layout keeps its depth and its number of values, so it can be written, and its text is
  a format under the same limits.
-/

namespace BinaryLayout

/-! ## Places -/

/-- The count of the field says how often it is read. -/
def Field.IsRepeated : Field → Prop
  | .number _ | .terminated => True
  | .text _ | .move _ => False

/-- At one place the count of a field or group is split in two.  The kind is that of the group whose
body the layout is, or an array at top level, and directly around the place it is an array. -/
inductive Layout.Unrolls : GroupKind → Layout → Layout → Prop where
  | field {name f m n rest} (repeated : f.IsRepeated) :
      Unrolls .array (.field name f (m + n) rest) (.field name f m (.field name f n rest))
  | group {name kind m n body rest} (first : 1 ≤ m) (second : 1 ≤ n) :
      Unrolls .array (.group name kind (m + n) body rest)
        (.group name kind m body (.group name kind n body rest))
  /-- The place stands in the body of a group. -/
  | inside {around name kind count body other rest} (place : Unrolls kind body other) :
      Unrolls around (.group name kind count body rest) (.group name kind count other rest)
  | behindField {around name f count rest other} (place : Unrolls around rest other) :
      Unrolls around (.field name f count rest) (.field name f count other)
  | behindGroup {around name kind count body rest other} (place : Unrolls around rest other) :
      Unrolls around (.group name kind count body rest) (.group name kind count body other)

/-! ## Readings in a row -/

theorem readTimes_add {α : Type} (reading : Position → α × Position) (m n : Nat) (p : Position) :
    readTimes reading (m + n) p =
      ((readTimes reading m p).1 ++ (readTimes reading n (readTimes reading m p).2).1,
        (readTimes reading n (readTimes reading m p).2).2) := by
  induction m generalizing p with
  | zero => rw [Nat.zero_add, readTimes_zero, List.nil_append]
  | succ m ih =>
    have hsum : m + 1 + n = m + n + 1 := by omega
    rw [hsum, readTimes_succ, readTimes_succ, ih, List.cons_append]

/-- A sum of counts reads what the one and then the other reads. -/
theorem Field.read_add {f : Field} (h : f.IsRepeated) (m n : Nat) (bytes : Payload) (p : Position) :
    f.read (m + n) bytes p =
      ((f.read m bytes p).1 ++ (f.read n bytes (f.read m bytes p).2).1,
        (f.read n bytes (f.read m bytes p).2).2) := by
  cases f with
  | number | terminated => exact readTimes_add _ m n p
  | text | move => exact h.elim

theorem Field.yield_add {f : Field} (h : f.IsRepeated) (m n : Nat) :
    f.yield (m + n) = f.yield m + f.yield n := by
  cases f with
  | number | terminated => rfl
  | text | move => exact h.elim

/-! ## Runs -/

/-- The parts make the same in a body of this kind, whatever parts stand in front of them. -/
def GroupKind.Agree : GroupKind → List Part → List Part → Prop
  | .array, parts, others => Part.flatten parts = Part.flatten others
  | .record, parts, others => parts = others

section

variable {kind : GroupKind} {parts others : List Part}

theorem GroupKind.Agree.refl (kind : GroupKind) (parts : List Part) : kind.Agree parts parts := by
  cases kind <;> rfl

theorem GroupKind.Agree.cons (part : Part) (h : kind.Agree parts others) :
    kind.Agree (part :: parts) (part :: others) := by
  cases kind with
  | array => exact congrArg (part.data ++ ·) h
  | record => exact congrArg (part :: ·) h

theorem GroupKind.Agree.assemble_eq (h : kind.Agree parts others) :
    kind.assemble parts = kind.assemble others := by
  cases kind with
  | array => exact congrArg Datum.sequence h
  | record => exact congrArg (fun parts => Datum.mapping (Part.record parts)) h

end

/-- In an array it does not matter whether data come in one part or in two. -/
theorem Part.flatten_split (name : Option String) (first second : List Datum) (parts : List Part) :
    flatten (⟨name, first ++ second⟩ :: parts) =
      flatten (⟨name, first⟩ :: ⟨name, second⟩ :: parts) :=
  List.append_assoc first second (flatten parts)

namespace Layout

variable {around : GroupKind} {layout other : Layout}

/-- A run yields the same, and ends at the same place. -/
theorem Unrolls.run_agrees (h : layout.Unrolls around other) (bytes : Payload) (p : Position) :
    around.Agree (layout.run bytes p).1 (other.run bytes p).1 ∧
      (layout.run bytes p).2 = (other.run bytes p).2 := by
  induction h generalizing p with
  | field repeated =>
    rw [run_field, run_field, run_field, Field.read_add repeated]
    exact ⟨Part.flatten_split _ _ _ _, rfl⟩
  | group =>
    rw [run_group, run_group, run_group, readTimes_add]
    exact ⟨Part.flatten_split _ _ _ _, rfl⟩
  | @inside around name kind count body changed rest place ih =>
    have hgroup : readGroup bytes kind body = readGroup bytes kind changed := by
      funext q
      obtain ⟨hparts, hend⟩ := ih q
      rw [readGroup, readGroup, hparts.assemble_eq, hend]
    rw [run_group, run_group, hgroup]
    exact ⟨.refl around _, rfl⟩
  | behindField _ ih =>
    obtain ⟨hparts, hend⟩ := ih _
    rw [run_field, run_field]
    exact ⟨hparts.cons _, hend⟩
  | behindGroup _ ih =>
    obtain ⟨hparts, hend⟩ := ih _
    rw [run_group, run_group]
    exact ⟨hparts.cons _, hend⟩

/-! ## Texts -/

theorem Unrolls.total_eq (h : layout.Unrolls around other) : layout.total = other.total := by
  induction h with
  | field repeated =>
    rw [total, total, total, Field.yield_add repeated, Nat.add_assoc]
  | group => rw [total, total, total, Nat.add_mul, Nat.add_assoc]
  | inside _ ih => rw [total, total, ih]
  | behindField _ ih => rw [total, total, ih]
  | behindGroup _ ih => rw [total, total, ih]

theorem Unrolls.depth_eq (h : layout.Unrolls around other) : layout.depth = other.depth := by
  induction h with
  | field => rfl
  | group =>
    rw [depth, depth, depth]
    omega
  | inside _ ih => rw [depth, depth, ih]
  | behindField _ ih => rw [depth, depth, ih]
  | behindGroup _ ih => rw [depth, depth, ih]

/-- A layout that a text can stand for stays one. -/
theorem Unrolls.isWellFormed (h : layout.Unrolls around other)
    (hformed : layout.IsWellFormed (around == .record)) :
    other.IsWellFormed (around == .record) := by
  induction h with
  | field =>
    obtain ⟨hname, hcount, hrest⟩ := hformed
    exact ⟨hname, by omega, hname, by omega, hrest⟩
  | group first second =>
    obtain ⟨hname, _, hcount, hbody, hrest⟩ := hformed
    exact ⟨hname, first, by omega, hbody, hname, second, by omega, hbody, hrest⟩
  | inside _ ih =>
    obtain ⟨hname, hpositive, hcount, hbody, hrest⟩ := hformed
    exact ⟨hname, hpositive, hcount, ih hbody, hrest⟩
  | behindField _ ih =>
    obtain ⟨hname, hcount, hrest⟩ := hformed
    exact ⟨hname, hcount, ih hrest⟩
  | behindGroup _ ih =>
    obtain ⟨hname, hpositive, hcount, hbody, hrest⟩ := hformed
    exact ⟨hname, hpositive, hcount, hbody, ih hrest⟩

end Layout

namespace Format

/-- A split count changes neither the data nor the place where a run ends, whatever the bytes are
and wherever it starts.  The layout with the split count has a text, which is a format under all
limits that allow the one without it. -/
theorem decode_eq_of_unrolls {format : Format} {layout : Layout}
    (h : format.layout.Unrolls .array layout) :
    (∀ bytes offset, format.decode bytes offset = layout.decode bytes offset ∧
      (format.layout.run bytes (Position.ofOffset offset)).2 =
        (layout.run bytes (Position.ofOffset offset)).2) ∧
      ∀ limits, ofText limits format.source = .ok format →
        ofText limits (String.ofList layout.write) = .ok ⟨String.ofList layout.write, layout⟩ := by
  refine ⟨fun bytes offset => h.run_agrees bytes (Position.ofOffset offset), fun limits hread => ?_⟩
  obtain ⟨hparse, hyield, _⟩ := ofText_eq_ok_iff.1 hread
  obtain ⟨left, hreads⟩ := Layout.reads_of_parse hparse
  have hformed : layout.IsWellFormed false := h.isWellFormed hreads.isWellFormed
  have hdepth : layout.depth ≤ limits.depth.toNat := by
    rw [← h.depth_eq]
    exact Layout.depth_le_of_parse hparse
  rw [ofText_eq_ok_iff, String.toList_ofList]
  refine ⟨Layout.parse_write hformed hdepth, ?_, rfl⟩
  rwa [Layout.yield_eq_min_total, ← h.total_eq, ← Layout.yield_eq_min_total]

/-- A record that holds an array of bytes and records. -/
theorem ofText_array_in_record :
    ofText {} "\x7ba:[2C3\x7b4b:Z+2\x7d]\x7d" =
      .ok ⟨"\x7ba:[2C3\x7b4b:Z+2\x7d]\x7d",
        .group none .record 1
          (.group (some "a") .array 2
            (.field none (.number (.byte .unsigned)) 3
              (.group none .record 4 (.field (some "b") .terminated 2 .done) .done)) .done)
          .done⟩ := by
  decide +kernel

/-- The four records are split in one and three. -/
theorem decode_of_unrolled_array_in_record :
    let layout : Layout := .group none .record 1
      (.group (some "a") .array 2
        (.field none (.number (.byte .unsigned)) 3
          (.group none .record 1 (.field (some "b") .terminated 2 .done)
            (.group none .record 3 (.field (some "b") .terminated 2 .done) .done))) .done) .done
    ∃ format, ofText {} "\x7ba:[2C3\x7b4b:Z+2\x7d]\x7d" = .ok format ∧
      format.layout.Unrolls .array layout ∧
      (∀ bytes offset, format.decode bytes offset = layout.decode bytes offset ∧
        (format.layout.run bytes (Position.ofOffset offset)).2 =
          (layout.run bytes (Position.ofOffset offset)).2) ∧
      ofText {} "\x7b1 a:[2 C3 \x7b1 b:Z+2 \x7d \x7b3 b:Z+2 \x7d ] \x7d " =
        .ok ⟨"\x7b1 a:[2 C3 \x7b1 b:Z+2 \x7d \x7b3 b:Z+2 \x7d ] \x7d ", layout⟩ := by
  intro layout
  have hwrite : String.ofList layout.write =
      "\x7b1 a:[2 C3 \x7b1 b:Z+2 \x7d \x7b3 b:Z+2 \x7d ] \x7d " := by
    decide +kernel
  refine ⟨_, ofText_array_in_record, ?_⟩
  generalize hformat : Format.mk _ _ = format
  have hunrolls : format.layout.Unrolls .array layout := by
    subst hformat
    exact .inside (.inside (.behindField (.group (m := 1) (n := 3) (by decide) (by decide))))
  obtain ⟨hdecode, htext⟩ := decode_eq_of_unrolls hunrolls
  have hlimits : ofText {} format.source = .ok format := by
    subst hformat
    exact ofText_array_in_record
  rw [← hwrite]
  exact ⟨hunrolls, hdecode, htext {} hlimits⟩

end Format

end BinaryLayout
