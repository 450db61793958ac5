import BinaryLayout.Layout.Decode

/-!
# Where a run goes

A run comes to the fields of a layout one after the other, to those of a group once for each
repeat, and each of them says where the next one starts.  This module writes that way down, for
any manner of reading fields.

There are three groups.

* Readings in a row.  `starts` lists where each of them starts.
* Runs.  `Layout.runWith` is a run in which fields are read in some given manner, and
  `run_eq_runWith` says that the run of the library is one.
* Visits.  `Layout.visits` lists the fields that a run comes to, each with its place.  Two manners
  of reading that agree there make the same run (`runWith_congr`), and what holds of the first
  place and is handed on by each visit holds of every place (`place_of_visits`).
-/

namespace BinaryLayout

/-! ## Readings in a row -/

section

variable {α β : Type}

/-- The positions at which the readings that `readTimes` takes start. -/
def starts (reading : Position → α × Position) : Nat → Position → List Position
  | 0, _ => []
  | n + 1, p => p :: starts reading n (reading p).2

@[simp] theorem length_starts (reading : Position → α × Position) (n : Nat) (p : Position) :
    (starts reading n p).length = n := by
  induction n generalizing p with
  | zero => rfl
  | succ n ih => rw [starts, List.length_cons, ih]

/-- Each reading gives what stands at its start. -/
theorem fst_readTimes (reading : Position → α × Position) (n : Nat) (p : Position) :
    (readTimes reading n p).1 = (starts reading n p).map fun q => (reading q).1 := by
  induction n generalizing p with
  | zero => rfl
  | succ n ih => rw [readTimes_succ, starts, List.map_cons, ih]

/-- Where readings start does not depend on what is done with their results. -/
theorem starts_map (reading : Position → α × Position) (f : α → β) (n : Nat) (p : Position) :
    starts (fun q => (f (reading q).1, (reading q).2)) n p = starts reading n p := by
  induction n generalizing p with
  | zero => rfl
  | succ n ih => rw [starts, starts, ih]

/-- Two readings that agree wherever the first one starts agree in a row. -/
theorem readTimes_congr {reading other : Position → α × Position} {n : Nat} {p : Position}
    (h : ∀ q ∈ starts reading n p, reading q = other q) :
    readTimes reading n p = readTimes other n p := by
  induction n generalizing p with
  | zero => rfl
  | succ n ih =>
    rw [starts, List.forall_mem_cons] at h
    rw [readTimes_succ, readTimes_succ, ih h.2, h.1]

end

/-! ## Runs -/

/-- A manner of reading fields: what a field with its count gives at a position, and the position
behind it. -/
abbrev FieldReader := Field → Nat → Position → List Datum × Position

/-- Reads fields from a payload. -/
def Payload.reader (bytes : Payload) : FieldReader := fun f count p => f.read count bytes p

namespace Layout

/-- Runs a layout from `p` on and reads its fields in the given manner. -/
def runWith (read : FieldReader) : Layout → Position → List Part × Position
  | .done, p => ([], p)
  | .field name f count rest, p =>
    let reading := read f count p
    let later := rest.runWith read reading.2
    (⟨name, reading.1⟩ :: later.1, later.2)
  | .group name kind count body rest, p =>
    let readings :=
      readTimes (fun q => (kind.assemble (body.runWith read q).1, (body.runWith read q).2)) count p
    let later := rest.runWith read readings.2
    (⟨name, readings.1⟩ :: later.1, later.2)

/-- Reads a group once in the given manner. -/
def readGroupWith (read : FieldReader) (kind : GroupKind) (body : Layout) (p : Position) :
    Datum × Position :=
  (kind.assemble (body.runWith read p).1, (body.runWith read p).2)

theorem runWith_field (read : FieldReader) (name : Option String) (f : Field) (count : Nat)
    (rest : Layout) (p : Position) :
    runWith read (.field name f count rest) p =
      (⟨name, (read f count p).1⟩ :: (rest.runWith read (read f count p).2).1,
        (rest.runWith read (read f count p).2).2) := rfl

theorem runWith_group (read : FieldReader) (name : Option String) (kind : GroupKind) (count : Nat)
    (body rest : Layout) (p : Position) :
    runWith read (.group name kind count body rest) p =
      (⟨name, (readTimes (readGroupWith read kind body) count p).1⟩ ::
          (rest.runWith read (readTimes (readGroupWith read kind body) count p).2).1,
        (rest.runWith read (readTimes (readGroupWith read kind body) count p).2).2) := rfl

/-- The run of the library reads each field from the payload. -/
theorem run_eq_runWith (bytes : Payload) (layout : Layout) (p : Position) :
    layout.run bytes p = layout.runWith bytes.reader p := by
  induction layout generalizing p with
  | done => rfl
  | field name f count rest ih => rw [run_field, runWith_field, ih, Payload.reader]
  | group name kind count body rest ihBody ihRest =>
    have hgroup : readGroup bytes kind body = readGroupWith bytes.reader kind body := by
      funext q
      rw [readGroup, readGroupWith, ihBody]
    rw [run_group, runWith_group, hgroup, ihRest]

end Layout

/-! ## Visits -/

/-- A field with its count, and the place at which a run comes to it. -/
structure Visit where
  field : Field
  count : Nat
  place : Position
deriving DecidableEq, Repr

/-- What a manner of reading gives on a visit. -/
def Visit.read (visit : Visit) (read : FieldReader) : List Datum × Position :=
  read visit.field visit.count visit.place

namespace Layout

/-- The fields that a run from `p` on comes to, in order. -/
def visits (read : FieldReader) : Layout → Position → List Visit
  | .done, _ => []
  | .field _ f count rest, p => ⟨f, count, p⟩ :: rest.visits read (read f count p).2
  | .group _ kind count body rest, p =>
    (starts (readGroupWith read kind body) count p).flatMap (body.visits read) ++
      rest.visits read (readTimes (readGroupWith read kind body) count p).2

/-- Two manners of reading that agree wherever the first one comes to make the same run. -/
theorem runWith_congr {read other : FieldReader} {layout : Layout} {p : Position}
    (h : ∀ visit ∈ layout.visits read p, visit.read read = visit.read other) :
    layout.runWith read p = layout.runWith other p := by
  induction layout generalizing p with
  | done => rfl
  | field name f count rest ih =>
    rw [visits, List.forall_mem_cons] at h
    have hfield : read f count p = other f count p := h.1
    rw [runWith_field, runWith_field, ih h.2, hfield]
  | group name kind count body rest ihBody ihRest =>
    rw [visits, List.forall_mem_append] at h
    have hgroups : readTimes (readGroupWith read kind body) count p =
        readTimes (readGroupWith other kind body) count p := by
      apply readTimes_congr
      intro q hq
      have hbody := ihBody fun visit hvisit => h.1 visit (List.mem_flatMap.2 ⟨q, hq, hvisit⟩)
      rw [readGroupWith, readGroupWith, hbody]
    rw [runWith_group, runWith_group, ihRest h.2, hgroups]

end Layout

/-- What holds of the first place and is handed on by each of several readings holds of every
start and of the place behind them. -/
theorem place_of_starts {α : Type} (good : Position → Prop) {reading : Position → α × Position}
    {n : Nat} {p : Position} (hp : good p)
    (h : ∀ q ∈ starts reading n p, good q → good (reading q).2) :
    (∀ q ∈ starts reading n p, good q) ∧ good (readTimes reading n p).2 := by
  induction n generalizing p with
  | zero => exact ⟨nofun, hp⟩
  | succ n ih =>
    rw [starts, List.forall_mem_cons] at h
    obtain ⟨hplaces, hstop⟩ := ih (h.1 hp) h.2
    rw [starts, readTimes_succ, List.forall_mem_cons]
    exact ⟨⟨hp, hplaces⟩, hstop⟩

namespace Layout

/-- What holds of the first place and is handed on by each visit holds of the place of each visit,
and of the place where the run ends. -/
theorem place_of_visits_of_step (good : Position → Prop) {read : FieldReader} {layout : Layout}
    {p : Position} (hp : good p)
    (h : ∀ visit ∈ layout.visits read p, good visit.place → good (visit.read read).2) :
    (∀ visit ∈ layout.visits read p, good visit.place) ∧ good (layout.runWith read p).2 := by
  induction layout generalizing p with
  | done => exact ⟨nofun, hp⟩
  | field name f count rest ih =>
    rw [visits, List.forall_mem_cons] at h
    obtain ⟨hplaces, hstop⟩ := ih (h.1 hp) h.2
    rw [visits, List.forall_mem_cons]
    exact ⟨⟨hp, hplaces⟩, hstop⟩
  | group name kind count body rest ihBody ihRest =>
    rw [visits, List.forall_mem_append] at h
    have hbody (q : Position) (hq : q ∈ starts (readGroupWith read kind body) count p)
        (hgood : good q) := ihBody hgood fun visit hvisit =>
      h.1 visit (List.mem_flatMap.2 ⟨q, hq, hvisit⟩)
    obtain ⟨hstarts, hbehind⟩ :=
      place_of_starts good hp fun q hq hgood => (hbody q hq hgood).2
    obtain ⟨hplaces, hstop⟩ := ihRest hbehind h.2
    rw [visits, List.forall_mem_append]
    refine ⟨⟨fun visit hvisit => ?_, hplaces⟩, hstop⟩
    obtain ⟨q, hq, hvisit⟩ := List.mem_flatMap.1 hvisit
    exact (hbody q hq (hstarts q hq)).1 visit hvisit

/-- What holds of the first place and of the place behind each visit holds of the place of each
visit, and of the place where the run ends. -/
theorem place_of_visits (good : Position → Prop) {read : FieldReader} {layout : Layout}
    {p : Position} (hp : good p) (h : ∀ visit ∈ layout.visits read p, good (visit.read read).2) :
    (∀ visit ∈ layout.visits read p, good visit.place) ∧ good (layout.runWith read p).2 :=
  place_of_visits_of_step good hp fun visit hvisit _ => h visit hvisit

end Layout

end BinaryLayout
