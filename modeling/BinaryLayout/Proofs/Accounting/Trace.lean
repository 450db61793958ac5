import BinaryLayout.Layout.Decode

/-!
# Runs that keep account of what they push

A run pushes values: each number and text that a field reads, and each sequence or mapping that a
repeat of a group makes. Not all of them stay where they were pushed. Several values of one record
field are packed into a sequence that nothing pushed, and a later field of the same name takes the
place of an earlier one. The decoded data do not show either, so this module runs a layout once more
and writes down what happens.

* `Traced` is a datum in which packing sequences can be told from the sequences of arrays, and
  `Traced.nodes` counts its nodes, a packing sequence as much as one likes.
* `Layout.trace` is the run that keeps account: the parts it yields, the position it ends at and
  everything that it has pushed, at every depth and in order.
* `Layout.erase_trace` and `Layout.datum_traced` say that it is the run of the library with the
  account left out.
-/

namespace BinaryLayout

/-! ## Nodes of decoded data -/

namespace Datum

mutual

/-- The number of nodes of a tree: itself and all that is under it. -/
def nodes : Datum → Nat
  | .number _ => 1
  | .text _ => 1
  | .sequence items => nodesOf items + 1
  | .mapping fields => nodesUnder fields + 1

/-- The number of nodes of several trees. -/
def nodesOf : List Datum → Nat
  | [] => 0
  | datum :: data => datum.nodes + nodesOf data

/-- The number of nodes of the values in a mapping. -/
def nodesUnder : Mapping Datum → Nat
  | .empty => 0
  | .entry _ datum rest => datum.nodes + nodesUnder rest

end

end Datum

/-! ## Traced data -/

/-- A datum that remembers which of its sequences pack the values of one record field. -/
inductive Traced where
  /-- What a field has read. -/
  | leaf (datum : Datum)
  | sequence (items : List Traced)
  /-- Several values of one record field. -/
  | pack (items : List Traced)
  | mapping (fields : Mapping Traced)

namespace Traced

mutual

/-- The datum itself. -/
def datum : Traced → Datum
  | .leaf datum => datum
  | .sequence items => .sequence (dataOf items)
  | .pack items => .sequence (dataOf items)
  | .mapping fields => .mapping (fieldsOf fields)

def dataOf : List Traced → List Datum
  | [] => []
  | item :: items => item.datum :: dataOf items

def fieldsOf : Mapping Traced → Mapping Datum
  | .empty => .empty
  | .entry name value rest => .entry name value.datum (fieldsOf rest)

end

mutual

/-- The number of nodes, where a packing sequence counts as `w` nodes. -/
def nodes (w : Nat) : Traced → Nat
  | .leaf datum => datum.nodes
  | .sequence items => nodesOf w items + 1
  | .pack items => nodesOf w items + w
  | .mapping fields => nodesUnder w fields + 1

/-- The number of nodes of several trees. -/
def nodesOf (w : Nat) : List Traced → Nat
  | [] => 0
  | item :: items => item.nodes w + nodesOf w items

/-- The number of nodes of the values in a mapping. -/
def nodesUnder (w : Nat) : Mapping Traced → Nat
  | .empty => 0
  | .entry _ value rest => value.nodes w + nodesUnder w rest

end

@[simp] theorem dataOf_eq_map (items : List Traced) : dataOf items = items.map datum := by
  induction items with
  | nil => rfl
  | cons item items ih => rw [dataOf, ih, List.map_cons]

theorem fieldsOf_insert (name : String) (value : Traced) (fields : Mapping Traced) :
    fieldsOf (fields.insert name value) = (fieldsOf fields).insert name value.datum := by
  induction fields with
  | empty => rfl
  | entry other old rest ih =>
    by_cases h : other = name
    · simp [Mapping.insert, fieldsOf, h]
    · simp [Mapping.insert, fieldsOf, h, ih]

theorem nodesOf_append (w : Nat) (items more : List Traced) :
    nodesOf w (items ++ more) = nodesOf w items + nodesOf w more := by
  induction items with
  | nil => simp [nodesOf]
  | cons item items ih => simp only [List.cons_append, nodesOf, ih, Nat.add_assoc]

mutual

/-- Where packing sequences count once, all nodes of the datum are counted. -/
theorem nodes_datum : (traced : Traced) → traced.datum.nodes = traced.nodes 1
  | .leaf _ => rfl
  | .sequence items => by rw [datum, Datum.nodes, nodesOf_dataOf items, nodes]
  | .pack items => by rw [datum, Datum.nodes, nodesOf_dataOf items, nodes]
  | .mapping fields => by rw [datum, Datum.nodes, nodesUnder_fieldsOf fields, nodes]

theorem nodesOf_dataOf : (items : List Traced) → Datum.nodesOf (dataOf items) = nodesOf 1 items
  | [] => rfl
  | item :: items => by
    rw [dataOf, Datum.nodesOf, nodes_datum item, nodesOf_dataOf items, nodesOf]

theorem nodesUnder_fieldsOf :
    (fields : Mapping Traced) → Datum.nodesUnder (fieldsOf fields) = nodesUnder 1 fields
  | .empty => rfl
  | .entry _ value rest => by
    rw [fieldsOf, Datum.nodesUnder, nodes_datum value, nodesUnder_fieldsOf rest, nodesUnder]

end

end Traced

/-! ## Runs -/

/-- A part of traced data. -/
structure TracedPart where
  name : Option String
  data : List Traced

namespace TracedPart

/-- The part itself. -/
def erase (part : TracedPart) : Part := ⟨part.name, part.data.map Traced.datum⟩

/-- What stands for several traced data under one name. -/
def pack? : List Traced → Option Traced
  | [] => none
  | [traced] => some traced
  | data => some (.pack data)

/-- Puts a part into a record. -/
def store (fields : Mapping Traced) (part : TracedPart) : Mapping Traced :=
  match part.name, pack? part.data with
  | some name, some traced => fields.insert name traced
  | _, _ => fields

/-- The traced datum that the parts of a body make. -/
def assemble : GroupKind → List TracedPart → Traced
  | .array, parts => .sequence (parts.flatMap data)
  | .record, parts => .mapping (parts.foldl store .empty)

theorem map_datum_pack? (data : List Traced) :
    (pack? data).map Traced.datum = Part.pack? (data.map Traced.datum) := by
  match data with
  | [] => rfl
  | [_] => rfl
  | first :: second :: more => simp [pack?, Part.pack?, Traced.datum]

theorem fieldsOf_store (fields : Mapping Traced) (part : TracedPart) :
    Traced.fieldsOf (store fields part) = Part.store (Traced.fieldsOf fields) part.erase := by
  obtain ⟨name, data⟩ := part
  have hpack := map_datum_pack? data
  cases name with
  | none => rfl
  | some name =>
    simp only [store, Part.store, erase]
    rw [← hpack]
    cases pack? data with
    | none => rfl
    | some traced => exact Traced.fieldsOf_insert name traced fields

theorem fieldsOf_foldl_store (fields : Mapping Traced) (parts : List TracedPart) :
    Traced.fieldsOf (parts.foldl store fields) =
      (parts.map erase).foldl Part.store (Traced.fieldsOf fields) := by
  induction parts generalizing fields with
  | nil => rfl
  | cons part parts ih => rw [List.foldl_cons, ih, fieldsOf_store, List.map_cons, List.foldl_cons]

theorem flatten_map_erase (parts : List TracedPart) :
    Part.flatten (parts.map erase) = (parts.flatMap data).map Traced.datum := by
  induction parts with
  | nil => rfl
  | cons part parts ih =>
    simp only [Part.flatten, List.map_cons, List.flatMap_cons, List.map_append] at ih ⊢
    rw [ih]
    rfl

theorem datum_assemble (kind : GroupKind) (parts : List TracedPart) :
    (assemble kind parts).datum = kind.assemble (parts.map erase) := by
  cases kind with
  | array =>
    simp only [assemble, GroupKind.assemble, Traced.datum, Traced.dataOf_eq_map, flatten_map_erase]
  | record =>
    simp only [assemble, GroupKind.assemble, Traced.datum, Part.record, fieldsOf_foldl_store]
    rfl

end TracedPart

/-- What a run leaves behind when it keeps account. -/
structure Trace where
  parts : List TracedPart
  /-- The position behind the last part. -/
  stop : Position
  /-- Everything that has been pushed, at every depth and in order. -/
  pushed : List Traced

namespace Layout

/-- Runs a layout from `p` on and keeps account. A repeat of a group pushes what its body pushes
and then the datum that the body makes. -/
def trace (bytes : Payload) : Layout → Position → Trace
  | .done, p => ⟨[], p, []⟩
  | .field name f count rest, p =>
    let reading := f.read count bytes p
    let data := reading.1.map Traced.leaf
    let later := rest.trace bytes reading.2
    ⟨⟨name, data⟩ :: later.parts, later.stop, data ++ later.pushed⟩
  | .group name kind count body rest, p =>
    let readings :=
      readTimes (fun p =>
        let inner := body.trace bytes p
        ((TracedPart.assemble kind inner.parts, inner.pushed), inner.stop)) count p
    let later := rest.trace bytes readings.2
    ⟨⟨name, readings.1.map (·.1)⟩ :: later.parts, later.stop,
      readings.1.flatMap (fun reading => reading.2 ++ [reading.1]) ++ later.pushed⟩

/-- Reads a group once and keeps account: the datum that its body makes, and what the body
pushes. -/
def traceGroup (bytes : Payload) (kind : GroupKind) (body : Layout) (p : Position) :
    (Traced × List Traced) × Position :=
  let inner := body.trace bytes p
  ((TracedPart.assemble kind inner.parts, inner.pushed), inner.stop)

theorem trace_group (bytes : Payload) (name : Option String) (kind : GroupKind) (count : Nat)
    (body rest : Layout) (p : Position) :
    trace bytes (.group name kind count body rest) p =
      let readings := readTimes (traceGroup bytes kind body) count p
      let later := rest.trace bytes readings.2
      ⟨⟨name, readings.1.map (·.1)⟩ :: later.parts, later.stop,
        readings.1.flatMap (fun reading => reading.2 ++ [reading.1]) ++ later.pushed⟩ := rfl

/-- Without its account a run is the run of the library. -/
theorem erase_trace (bytes : Payload) (layout : Layout) (p : Position) :
    ((layout.trace bytes p).parts.map TracedPart.erase, (layout.trace bytes p).stop) =
      layout.run bytes p := by
  induction layout generalizing p with
  | done => rfl
  | field name f count rest ih =>
    have hrest := ih (f.read count bytes p).2
    have hleaf : Traced.datum ∘ Traced.leaf = id := rfl
    rw [run_field, ← hrest]
    simp [trace, TracedPart.erase, hleaf]
  | group name kind count body rest ihBody ihRest =>
    have hgroup : readGroup bytes kind body = fun q =>
        ((traceGroup bytes kind body q).1.1.datum, (traceGroup bytes kind body q).2) := by
      funext q
      rw [readGroup, ← ihBody, ← TracedPart.datum_assemble]
      rfl
    have htimes : readTimes (readGroup bytes kind body) count p =
        ((readTimes (traceGroup bytes kind body) count p).1.map fun reading => reading.1.datum,
          (readTimes (traceGroup bytes kind body) count p).2) := by
      rw [hgroup]
      exact readTimes_map (traceGroup bytes kind body) (fun reading => reading.1.datum) count p
    have hrest := ihRest (readTimes (traceGroup bytes kind body) count p).2
    rw [run_group, trace_group, htimes, ← hrest]
    simp [TracedPart.erase]

/-- The data that a run yields at top level, traced. -/
def traced (layout : Layout) (bytes : Payload) (offset : Int) : List Traced :=
  (layout.trace bytes (Position.ofOffset offset)).parts.flatMap TracedPart.data

/-- Everything that a run pushes. -/
def pushed (layout : Layout) (bytes : Payload) (offset : Int) : List Traced :=
  (layout.trace bytes (Position.ofOffset offset)).pushed

/-- Without their trace they are the decoded data. -/
theorem datum_traced (layout : Layout) (bytes : Payload) (offset : Int) :
    (layout.traced bytes offset).map Traced.datum = layout.decode bytes offset := by
  rw [traced, decode, ← erase_trace, TracedPart.flatten_map_erase]

end Layout

end BinaryLayout
