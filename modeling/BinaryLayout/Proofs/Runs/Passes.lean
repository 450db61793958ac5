import BinaryLayout.Proofs.Layout.Bundles
import BinaryLayout.Proofs.Layout.Compose

/-!
# Passes with one list for all that is read

A run of a body keeps what each field yields apart.  This module goes over a body with a single list
instead: every datum is put behind what the list holds as soon as it is read, and a record takes the
list apart again behind each of its fields.  It has to be empty by then, or data of one field would
come under the name of another.

There are three groups.

* Passes.  `Layout.pass` is one pass over a body.  An array lets the list grow, and a record empties
  it behind each field (`Pass.stow`): the data have no name and are dropped, there is one datum and
  it is taken out, or there are several and the list is taken as a whole.
* Passes and runs.  `pass_eq` compares a pass with the run of the library: a record starts each of
  its fields with an empty list.
* Records.  `Part.keys_record` and `Part.get?_record` say what parts leave in a record, and
  `Layout.pass_record` what a pass leaves.
-/

namespace BinaryLayout

/-! ## Passes -/

/-- What a pass over a body works on. -/
structure Pass where
  /-- The record as far as it has been filled. -/
  fields : Mapping Datum
  /-- The data that have been read and not yet been taken. -/
  pending : List Datum
  place : Position

namespace Pass

/-- A pass that starts at `p`. -/
def start (p : Position) : Pass := ⟨.empty, [], p⟩

/-- Takes `n` readings one after the other. Each datum is put behind what is pending. -/
def push (reading : Position → Datum × Position) : Nat → Pass → Pass
  | 0, pass => pass
  | n + 1, pass =>
    push reading n
      ⟨pass.fields, pass.pending ++ [(reading pass.place).1], (reading pass.place).2⟩

/-- Reads a field with its count. -/
def read (bytes : Payload) (f : Field) (count : Nat) (pass : Pass) : Pass :=
  match f with
  | .number field =>
    push (fun p => (.number (field.read bytes p).1, (field.read bytes p).2)) count pass
  | .text field =>
    push (fun p => (.text (field.read count bytes p).1, (field.read count bytes p).2)) 1 pass
  | .terminated =>
    push (fun p => (.text (readTerminated bytes p).1, (readTerminated bytes p).2)) count pass
  | .move step => ⟨pass.fields, pass.pending, step.apply count pass.place⟩

/-- Takes what is pending into the record, under the name of the field behind which it stands. -/
def stow (name : Option String) (pass : Pass) : Pass :=
  match name, pass.pending with
  | none, _ => ⟨pass.fields, [], pass.place⟩
  | some _, [] => pass
  | some name, [datum] => ⟨pass.fields.insert name datum, [], pass.place⟩
  | some name, data => ⟨pass.fields.insert name (.sequence data), [], pass.place⟩

/-- What a body of this kind does behind each of its fields. -/
def settle (name : Option String) (pass : Pass) : GroupKind → Pass
  | .array => pass
  | .record => pass.stow name

/-- The datum that a pass over a body of this kind has made. -/
def datum (pass : Pass) : GroupKind → Datum
  | .array => .sequence pass.pending
  | .record => .mapping pass.fields

end Pass

/-- Goes over a body of the given kind. A group in it starts a pass of its own for each repeat. -/
def Layout.pass (bytes : Payload) : GroupKind → Layout → Pass → Pass
  | _, .done, pass => pass
  | kind, .field name f count rest, pass =>
    rest.pass bytes kind ((pass.read bytes f count).settle name kind)
  | kind, .group name inner count body rest, pass =>
    let reading (p : Position) : Datum × Position :=
      let inside := body.pass bytes inner (.start p)
      (inside.datum inner, inside.place)
    rest.pass bytes kind ((pass.push reading count).settle name kind)

/-! ## Passes and runs -/

namespace Pass

variable {pass : Pass}

theorem push_eq (reading : Position → Datum × Position) (n : Nat) (pass : Pass) :
    pass.push reading n =
      ⟨pass.fields, pass.pending ++ (readTimes reading n pass.place).1,
        (readTimes reading n pass.place).2⟩ := by
  induction n generalizing pass with
  | zero => rw [push, readTimes_zero, List.append_nil]
  | succ n ih =>
    rw [push, ih, readTimes_succ, List.append_assoc]
    rfl

/-- A field puts what it yields behind what is pending. -/
theorem read_eq (bytes : Payload) (f : Field) (count : Nat) (pass : Pass) :
    pass.read bytes f count =
      ⟨pass.fields, pass.pending ++ (f.read count bytes pass.place).1,
        (f.read count bytes pass.place).2⟩ := by
  cases f with
  | number field => exact push_eq _ count pass
  | text field => rfl
  | terminated => exact push_eq _ count pass
  | move step =>
    rw [read, Field.read, List.append_nil]

/-- Whatever is pending is stowed as the data of one part, and nothing stays pending. -/
theorem stow_eq (name : Option String) (pass : Pass) :
    pass.stow name = ⟨Part.store pass.fields ⟨name, pass.pending⟩, [], pass.place⟩ := by
  obtain ⟨fields, pending, place⟩ := pass
  cases name with
  | none => rfl
  | some name =>
    match pending with
    | [] => rfl
    | [_] => rfl
    | _ :: _ :: _ => rfl

end Pass

namespace Layout

/-- A pass reads what the run of the library reads. In an array all of it pends. In a record each
part is stowed, if nothing pends in front of the first field. -/
theorem pass_eq (bytes : Payload) (layout : Layout) (pass : Pass) :
    layout.pass bytes .array pass =
        ⟨pass.fields, pass.pending ++ Part.flatten (layout.run bytes pass.place).1,
          (layout.run bytes pass.place).2⟩ ∧
      (pass.pending = [] →
        layout.pass bytes .record pass =
          ⟨(layout.run bytes pass.place).1.foldl Part.store pass.fields, [],
            (layout.run bytes pass.place).2⟩) := by
  induction layout generalizing pass with
  | done =>
    obtain ⟨fields, pending, place⟩ := pass
    refine ⟨?_, ?_⟩
    · exact congrArg (Pass.mk fields · place) (List.append_nil pending).symm
    · rintro rfl
      rfl
  | field name f count rest ih =>
    refine ⟨?_, fun hpending => ?_⟩
    · rw [Layout.pass, Pass.settle, (ih _).1, Pass.read_eq, run_field, List.append_assoc]
      rfl
    · rw [Layout.pass, Pass.settle, Pass.stow_eq, (ih _).2 rfl, Pass.read_eq, hpending,
        List.nil_append, run_field, List.foldl_cons]
  | group name kind count body rest ihBody ihRest =>
    have hgroup : readGroup bytes kind body = fun q =>
        ((body.pass bytes kind (.start q)).datum kind,
          (body.pass bytes kind (.start q)).place) := by
      funext q
      cases kind with
      | array =>
        rw [(ihBody (.start q)).1]
        rfl
      | record =>
        rw [(ihBody (.start q)).2 rfl]
        rfl
    refine ⟨?_, fun hpending => ?_⟩
    · rw [Layout.pass, ← hgroup, Pass.settle, (ihRest _).1, Pass.push_eq, run_group,
        List.append_assoc]
      rfl
    · rw [Layout.pass, ← hgroup, Pass.settle, Pass.stow_eq, (ihRest _).2 rfl, Pass.push_eq,
        hpending, List.nil_append, run_group, List.foldl_cons]

end Layout

/-! ## Records -/

namespace Part

/-- Whether the part has any data. -/
def yields (part : Part) : Bool := !part.data.isEmpty

/-- What stands under a name for its data: the datum itself if it is the only one, and otherwise
their sequence. -/
def value : List Datum → Datum
  | [datum] => datum
  | data => .sequence data

/-- A part writes its value under its name, if it has both a name and data. -/
theorem write?_bundle (part : Part) :
    part.bundle.write? .sequence =
      if part.yields then part.name.map (·, value part.data) else none := by
  obtain ⟨name, data⟩ := part
  cases name with
  | none => cases data <;> rfl
  | some name =>
    match data with
    | [] => rfl
    | [_] => rfl
    | _ :: _ :: _ => rfl

/-- The writes of parts are those of the parts that have data. -/
theorem writes_eq (parts : List Part) :
    (parts.map bundle).filterMap (Bundle.write? .sequence) =
      (parts.filter yields).filterMap fun part => part.name.map (·, value part.data) := by
  rw [List.filterMap_map, List.filterMap_filter]
  exact List.filterMap_congr fun part _ => part.write?_bundle

theorem record_eq_ofList (parts : List Part) :
    record parts =
      .ofList ((parts.filter yields).filterMap fun part => part.name.map (·, value part.data)) := by
  rw [record, foldl_store, writes_eq, Mapping.ofList]

/-- A record has the names under which there are data, each where it first comes. -/
theorem keys_record (parts : List Part) :
    (record parts).keys = ((parts.filter yields).filterMap name).eraseDups := by
  rw [record_eq_ofList, Mapping.keys_ofList, List.map_filterMap]
  congr 1
  apply List.filterMap_congr
  intro part _
  cases part.name <;> rfl

theorem lookup_writes (parts : List Part) (key : String) :
    (parts.filterMap fun part => part.name.map (·, value part.data)).lookup key =
      (parts.find? (·.name = some key)).map fun part => value part.data := by
  induction parts with
  | nil => rfl
  | cons part parts ih =>
    obtain ⟨name, data⟩ := part
    cases name with
    | none =>
      rw [List.filterMap_cons_none rfl, List.find?_cons_of_neg (by simp), ih]
    | some name =>
      show ((name, value data) :: parts.filterMap fun part =>
        part.name.map (·, value part.data)).lookup key = _
      rw [List.lookup_cons]
      by_cases h : key = name
      · subst h
        simp
      · have hne : (key == name) = false := by simpa using h
        have hother : ¬name = key := fun he => h he.symm
        rw [hne, ih, List.find?_cons_of_neg (by simpa using hother)]

/-- Under a name there is the value of the last part of that name that has data. -/
theorem get?_record (parts : List Part) (key : String) :
    (record parts).get? key =
      ((parts.filter yields).reverse.find? (·.name = some key)).map fun part =>
        value part.data := by
  rw [record_eq_ofList, Mapping.get?_ofList, ← List.filterMap_reverse, lookup_writes]

/-- Parts that have no data under a name leave what stands there. -/
theorem get?_record_append {parts more : List Part} {key : String}
    (h : ∀ part ∈ more, part.name = some key → part.data = []) :
    (record (parts ++ more)).get? key = (record parts).get? key := by
  have hnone : (more.filter yields).reverse.find? (·.name = some key) = none := by
    rw [List.find?_eq_none]
    intro part hpart hname
    rw [List.mem_reverse, List.mem_filter] at hpart
    have hdata := h part hpart.1 (of_decide_eq_true hname)
    rw [yields, hdata] at hpart
    exact absurd hpart.2 (by decide)
  rw [get?_record, get?_record, List.filter_append, List.reverse_append, List.find?_append, hnone,
    Option.none_or]

end Part

namespace Layout

/-- **What a pass over a record body leaves.**

The record and the place behind it are those that the library gives.  The record has the names of
the fields that yield data, each where it first comes.  Under a name there is the value of the last
field of that name that yields data.  Fields behind the body start where it ends, and those that
yield nothing under a name leave what stands there.  All data together, and the place behind them,
are those of a pass over the same body as an array. -/
theorem pass_record (bytes : Payload) (body : Layout) (p : Position) :
    let parts := (body.run bytes p).1
    let record := (body.pass bytes .record (.start p)).fields
    let behind := (body.pass bytes .record (.start p)).place
    readGroup bytes .record body p = (.mapping record, behind) ∧
      record.keys = ((parts.filter Part.yields).filterMap Part.name).eraseDups ∧
      (∀ key, record.get? key =
        ((parts.filter Part.yields).reverse.find? (·.name = some key)).map fun part =>
          Part.value part.data) ∧
      (∀ more : Layout,
        ((body ++ more).run bytes p).1 = parts ++ (more.run bytes behind).1 ∧
          ∀ key, (∀ part ∈ (more.run bytes behind).1, part.name = some key → part.data = []) →
            ((body ++ more).pass bytes .record (.start p)).fields.get? key = record.get? key) ∧
      (body.pass bytes .array (.start p)).pending = parts.flatMap Part.data ∧
      (body.pass bytes .array (.start p)).place = behind := by
  have hrecord (layout : Layout) : layout.pass bytes .record (.start p) =
      ⟨Part.record (layout.run bytes p).1, [], (layout.run bytes p).2⟩ :=
    (layout.pass_eq bytes (.start p)).2 rfl
  have harray : body.pass bytes .array (.start p) =
      ⟨.empty, Part.flatten (body.run bytes p).1, (body.run bytes p).2⟩ :=
    (body.pass_eq bytes (.start p)).1
  rw [hrecord body, harray]
  refine ⟨rfl, Part.keys_record _, Part.get?_record _, fun more => ?_, rfl, rfl⟩
  have happend := congrArg Prod.fst (run_append body more bytes p)
  refine ⟨happend, fun key hnone => ?_⟩
  rw [hrecord (body ++ more), happend]
  exact Part.get?_record_append hnone

/-- A name comes three times: first alone, then with two data, and then with none. -/
example :
    let byte : Field := .number (.byte .unsigned)
    let body : Layout := .field (some "a") byte 1 (.field (some "b") .terminated 1
      (.field (some "a") byte 2 (.field (some "a") byte 0 .done)))
    ((body.pass #[1, 0x78, 0, 2, 3] .record (.start 0)).fields.keys,
      (body.pass #[1, 0x78, 0, 2, 3] .record (.start 0)).place) = (["a", "b"], 5) := by
  decide +kernel

end Layout

end BinaryLayout
