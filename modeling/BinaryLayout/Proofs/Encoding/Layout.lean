import BinaryLayout.Format
import BinaryLayout.Proofs.Accounting.Values
import BinaryLayout.Proofs.Encoding.Field

/-!
# Reading back data

Data that fit a layout without moves have bytes, and wherever a payload holds these bytes the layout
reads the data back and ends behind them.

There are three groups.

* Bodies.  `Datum.Begins` says how the values of one field or group stand in the datum of a body:
  in a row in a sequence, and under their name in a mapping.  `GroupKind.assemble_cons` is the same
  rule seen from a run.
* Layouts.  `Layout.Fits` and `Layout.encode` go through a datum along its layout.
* Runs.  `Layout.recovers_encode` is the induction over the layout, and `decode_encode_within` is
  what it comes to for a format.
-/

namespace BinaryLayout

/-! ## Bodies -/

/-- The datum of a body in which nothing stands. -/
def GroupKind.empty : GroupKind → Datum
  | .array => .sequence []
  | .record => .mapping .empty

namespace Datum

/-- Whether these values stand first in the datum of a body, under a name or under none, and what
stands behind them. In a mapping, one value stands under its name itself and several stand there in
a sequence; a name without values is left out. -/
inductive Begins : Datum → Option String → List Datum → Datum → Prop
  | row (values items : List Datum) :
    Begins (.sequence (values ++ items)) none values (.sequence items)
  | omitted (name : String) (fields : Mapping Datum) :
    Begins (.mapping fields) (some name) [] (.mapping fields)
  | single (name : String) (value : Datum) (fields : Mapping Datum) :
    Begins (.mapping (.entry name value fields)) (some name) [value] (.mapping fields)
  | packed (name : String) (values : List Datum) (fields : Mapping Datum)
      (several : 1 < values.length) :
    Begins (.mapping (.entry name (.sequence values) fields)) (some name) values (.mapping fields)

/-- The first values in the datum of a body, if there are as many as this, and what stands behind
them. -/
def draw (count : Nat) : Datum → List Datum × Datum
  | .sequence items => (items.take count, .sequence (items.drop count))
  | .mapping (.entry name value fields) =>
    match count, value with
    | 0, _ => ([], .mapping (.entry name value fields))
    | 1, _ => ([value], .mapping fields)
    | _, .sequence values => (values, .mapping fields)
    | _, _ => ([], .mapping fields)
  | whole => ([], whole)

theorem Begins.draw {whole more : Datum} {name : Option String} {values : List Datum}
    (h : whole.Begins name values more) : whole.draw values.length = (values, more) := by
  cases h with
  | row values items => rw [Datum.draw, List.take_left, List.drop_left]
  | omitted name fields => cases fields <;> rfl
  | single => rfl
  | packed name values fields several =>
    match values, several with
    | _ :: _ :: _, _ => rfl

end Datum

namespace Part

theorem pack?_of_one_lt {data : List Datum} (h : 1 < data.length) :
    pack? data = some (.sequence data) := by
  match data, h with
  | _ :: _ :: _, _ => rfl

/-- A part that brings data under another name leaves the first entry of a record where it is. -/
theorem foldl_store_entry {key : String} (value : Datum) {parts : List Part}
    (h : ∀ part ∈ parts, part.name = some key → part.data = []) (fields : Mapping Datum) :
    parts.foldl store (.entry key value fields) = .entry key value (parts.foldl store fields) := by
  induction parts generalizing fields with
  | nil => rfl
  | cons part parts ih =>
    rw [List.forall_mem_cons] at h
    have hstore : store (.entry key value fields) part = .entry key value (store fields part) := by
      unfold store
      split
      · next name datum hname hpack =>
        have hne : key ≠ name := by
          rintro rfl
          rw [h.1 hname] at hpack
          cases hpack
        rw [Mapping.insert, if_neg hne]
      · rfl
    rw [List.foldl_cons, hstore, ih h.2, List.foldl_cons]

end Part

/-- One part in front of others makes the datum in which its values stand first, if in a record no
other part brings data under its name. -/
theorem GroupKind.assemble_cons {kind : GroupKind} {name : Option String} {values : List Datum}
    {parts : List Part} {whole : Datum} (h : whole.Begins name values (kind.assemble parts))
    (hname : kind = .record → values ≠ [] → ∀ key ∈ name,
      ∀ part ∈ parts, part.name = some key → part.data = []) :
    kind.assemble (⟨name, values⟩ :: parts) = whole := by
  cases kind with
  | array =>
    cases h with
    | row => rfl
  | record =>
    have hstart : assemble .record (⟨name, values⟩ :: parts) =
        .mapping (parts.foldl Part.store (Part.store .empty ⟨name, values⟩)) := rfl
    rw [hstart]
    rw [assemble, Part.record] at h
    cases h with
    | omitted => rfl
    | single key value =>
      have hlater := hname rfl (by simp) key rfl
      have hstore : Part.store .empty ⟨some key, [value]⟩ = .entry key value .empty := rfl
      rw [hstore, Part.foldl_store_entry value hlater]
    | packed key _ _ several =>
      have hlater := hname rfl (by rintro rfl; cases several) key rfl
      have hstore :
          Part.store .empty ⟨some key, values⟩ = .entry key (.sequence values) .empty := by
        rw [Part.store, Part.pack?_of_one_lt several]
        rfl
      rw [hstore, Part.foldl_store_entry _ hlater]

/-! ## Layouts -/

namespace Layout

/-- Whether nothing in the layout moves the position without reading. -/
def isSeekFree : Layout → Bool
  | .done => true
  | .field _ f _ rest => !f.isMove && rest.isSeekFree
  | .group _ _ _ body rest => body.isSeekFree && rest.isSeekFree

/-- Whether a datum can be what the layout makes as the body of a group of this kind. -/
def Fits : GroupKind → Layout → Datum → Prop
  | kind, .done, whole => whole = kind.empty
  | kind, .field name f count rest, whole =>
    ∃ values more, whole.Begins name values more ∧ f.Fits count values ∧ rest.Fits kind more
  | kind, .group name inner count body rest, whole =>
    ∃ values more, whole.Begins name values more ∧
      (values.length = count ∧ ∀ value ∈ values, body.Fits inner value) ∧ rest.Fits kind more

/-- The bytes of the datum of a body: those of all fields in order, and those of a group's body once
for each of its values. -/
def encode : Layout → Datum → List UInt8
  | .done, _ => []
  | .field _ f count rest, whole =>
    let (values, more) := whole.draw (f.yield count)
    f.encode count values ++ rest.encode more
  | .group _ _ count body rest, whole =>
    let (values, more) := whole.draw count
    values.flatMap body.encode ++ rest.encode more

/-! ## Runs -/

variable {bytes : Payload}

/-- Values that are not supplied under their name are none. -/
theorem eq_nil_of_notMem {values : List Datum} {name : Option String} {key : String} {n : Nat}
    (hlength : values.length = n) (hkey : key ∉ if n = 0 then [] else name.toList)
    (hname : name = some key) : values = [] := by
  subst hlength hname
  by_contra hne
  rw [if_neg (mt List.eq_nil_of_length_eq_zero hne)] at hkey
  exact hkey (List.mem_singleton.2 rfl)

/-- A part brings data only under a name that its layout supplies. -/
theorem data_eq_nil_of_mem_run {layout : Layout} {key : String} (hkey : key ∉ layout.suppliers)
    (p : Position) :
    ∀ part ∈ (layout.run bytes p).1, part.name = some key → part.data = [] := by
  induction layout generalizing p with
  | done => exact nofun
  | field name f count rest ih =>
    rw [suppliers, List.mem_append, not_or] at hkey
    rw [run_field]
    exact List.forall_mem_cons.2 ⟨eq_nil_of_notMem (Field.length_read ..) hkey.1, ih hkey.2 _⟩
  | group name kind count body rest _ ih =>
    rw [suppliers, List.mem_append, not_or] at hkey
    rw [run_group]
    exact List.forall_mem_cons.2 ⟨eq_nil_of_notMem (length_readTimes ..) hkey.1, ih hkey.2 _⟩

/-- Reads one part of a body and then the rest of it. -/
theorem recovers_cons {kind : GroupKind} {name : Option String} {rest : Layout}
    {reading : Position → List Datum × Position} {values : List Datum} {whole more : Datum}
    {found behind : List UInt8} (hvalues : Recovers bytes reading values found)
    (hrest : Recovers bytes (readGroup bytes kind rest) more behind)
    (hbegins : whole.Begins name values more)
    (hown : kind = .record →
      ((if values.length = 0 then [] else name.toList) ++ rest.suppliers).Nodup) :
    Recovers bytes
      (fun p => (kind.assemble (⟨name, (reading p).1⟩ :: (rest.run bytes (reading p).2).1),
        (rest.run bytes (reading p).2).2))
      whole (found ++ behind) := by
  intro p hp
  obtain ⟨hfirst, hlater⟩ := hp.append
  have hread := hvalues p hfirst
  have hgroup := hrest _ hlater
  rw [readGroup, Prod.mk.injEq] at hgroup
  obtain ⟨hmore, hstop⟩ := hgroup
  rw [← hmore] at hbegins
  dsimp only
  rw [hread, hstop, List.length_append, Int.natCast_add, Int.add_assoc]
  congr 1
  refine GroupKind.assemble_cons hbegins fun hkind hne key hkey => ?_
  obtain rfl : name = some key := hkey
  exact data_eq_nil_of_mem_run
    (notMem_of_nodup (hown hkind) (mt List.eq_nil_of_length_eq_zero hne)) _

/-- What fits a layout is read back from its bytes. -/
theorem recovers_encode (hsize : (bytes.size : Int) ≤ Position.highest) {layout : Layout}
    (hseek : layout.isSeekFree = true) (hnames : layout.NamesDistinct) {kind : GroupKind}
    (hown : kind = .record → layout.suppliers.Nodup) {whole : Datum}
    (h : layout.Fits kind whole) :
    Recovers bytes (readGroup bytes kind layout) whole (layout.encode whole) := by
  induction layout generalizing kind whole with
  | done =>
    obtain rfl : whole = kind.empty := h
    intro p _
    rw [encode, List.length_nil]
    cases kind <;> simp [readGroup, run] <;> rfl
  | field name f count rest ih =>
    obtain ⟨values, more, hbegins, hvalues, hmore⟩ := h
    rw [isSeekFree, Bool.and_eq_true, Bool.not_eq_true'] at hseek
    rw [suppliers, ← hvalues.1] at hown
    have hrest : kind = .record → rest.suppliers.Nodup := fun hkind =>
      (List.nodup_append.1 (hown hkind)).2.1
    rw [encode, ← hvalues.1, hbegins.draw]
    exact recovers_cons (Field.recovers_encode hsize hseek.1 hvalues)
      (ih hseek.2 hnames hrest hmore) hbegins hown
  | group name inner count body rest ihBody ihRest =>
    obtain ⟨values, more, hbegins, ⟨hcount, hvalues⟩, hmore⟩ := h
    rw [isSeekFree, Bool.and_eq_true] at hseek
    obtain ⟨hbody, hinner, hlater⟩ := hnames
    rw [suppliers, ← hcount] at hown
    have hrest : kind = .record → rest.suppliers.Nodup := fun hkind =>
      (List.nodup_append.1 (hown hkind)).2.1
    have hgroups : Recovers bytes (readTimes (readGroup bytes inner body) values.length) values
        (values.flatMap body.encode) :=
      Recovers.readTimes fun value hvalue => ihBody hseek.1 hinner hbody (hvalues value hvalue)
    rw [encode, ← hcount, hbegins.draw]
    exact recovers_cons hgroups (ihRest hseek.2 hlater hrest hmore) hbegins hown

end Layout

namespace Format

/-- The bytes of data. -/
def encode (format : Format) (data : List Datum) : List UInt8 :=
  format.layout.encode (.sequence data)

/-- Data that fit a format without moves, in which no record gives one name to two fields, are
decoded from their bytes wherever these stand, and the run ends behind them. -/
theorem decode_encode_within (format : Format) (hseek : format.layout.isSeekFree = true)
    (hnames : format.layout.NamesDistinct) {data : List Datum}
    (hfits : format.layout.Fits .array (.sequence data)) (before after : List UInt8)
    (hsize : ((before ++ format.encode data ++ after).length : Int) ≤ Position.highest) :
    format.decode (before ++ format.encode data ++ after).toArray before.length = data ∧
      (format.layout.run (before ++ format.encode data ++ after).toArray
        (Position.ofOffset before.length)).2 = before.length + (format.encode data).length := by
  have hstart : Position.ofOffset before.length = before.length :=
    Int.max_eq_left (Int.natCast_nonneg _)
  have hholds : Payload.HoldsAt (before ++ format.encode data ++ after).toArray before.length
      (format.encode data) := ⟨before, after, rfl, rfl⟩
  have hown : GroupKind.array = .record → format.layout.suppliers.Nodup := nofun
  have hread := Layout.recovers_encode hsize hseek hnames hown hfits _ hholds
  rw [Layout.readGroup, Prod.mk.injEq] at hread
  obtain ⟨hdata, hstop⟩ := hread
  rw [decode, Layout.decode, hstart]
  exact ⟨Datum.sequence.inj hdata, hstop⟩

theorem ofText_record_and_texts :
    ofText {} "\x7bid:s<2 none:C0 flag:C list:[2 A4 Z+]\x7d d< Z3 h4" =
      .ok ⟨"\x7bid:s<2 none:C0 flag:C list:[2 A4 Z+]\x7d d< Z3 h4",
        .group none .record 1
          (.field (some "id") (.number (.word .signed .two .little)) 2
            (.field (some "none") (.number (.byte .unsigned)) 0
              (.field (some "flag") (.number (.byte .unsigned)) 1
                (.group (some "list") .array 2
                  (.field none (.text .blankPadded) 4 (.field none .terminated 1 .done)) .done))))
          (.field none (.number (.real .double .little)) 1
            (.field none (.text .zeroPadded) 3 (.field none (.text (.hex .low)) 4 .done)))⟩ := by
  decide +kernel

/-- A record with a packed field, one without values and a list of texts, and behind it a double and
two more texts. -/
theorem decode_encode_record_and_texts :
    let data : List Datum :=
      [.mapping
        (.entry "id" (.sequence [.number (.signed (-2)), .number (.signed 300)])
          (.entry "flag" (.number (.unsigned 7))
            (.entry "list" (.sequence [.sequence [.text "é", .text "x"],
              .sequence [.text "ab", .text ""]]) .empty))),
        .number (.float ⟨0x3FF8000000000000⟩), .text "hi", .text "0af3"]
    let bytes : List UInt8 :=
      [0xFE, 0xFF, 0x2C, 0x01, 7, 0xC3, 0xA9, 0x20, 0x20, 0x78, 0, 0x61, 0x62, 0x20, 0x20, 0,
        0, 0, 0, 0, 0, 0, 0xF8, 0x3F, 0x68, 0x69, 0, 0xA0, 0x3F]
    ∃ format, ofText {} "\x7bid:s<2 none:C0 flag:C list:[2 A4 Z+]\x7d d< Z3 h4" = .ok format ∧
      format.layout.isSeekFree ∧ format.layout.NamesDistinct ∧
      format.layout.Fits .array (.sequence data) ∧ format.encode data = bytes ∧
      format.decode ([1, 2] ++ bytes ++ [3]).toArray 2 = data ∧
      (format.layout.run ([1, 2] ++ bytes ++ [3]).toArray (Position.ofOffset 2)).2 = 31 := by
  intro data bytes
  refine ⟨_, ofText_record_and_texts, ?_⟩
  generalize hformat : Format.mk _ _ = format
  have hseek : format.layout.isSeekFree = true := by
    subst hformat
    rfl
  have hnames : format.layout.NamesDistinct := by
    subst hformat
    refine ⟨fun _ => ?_, ⟨?_, trivial, trivial⟩, trivial⟩
    · decide
    · exact nofun
  have hbytes : format.encode data = bytes := by
    subst hformat
    decide
  have hfits : format.layout.Fits .array (.sequence data) := by
    subst hformat
    have hitem {s t : String} (hs : TextField.Fits .blankPadded 4 s.toList)
        (ht : '\x00' ∉ t.toList) : Layout.Fits .array
          (.field none (.text .blankPadded) 4 (.field none .terminated 1 .done))
          (.sequence [.text s, .text t]) :=
      ⟨[_], _, .row [_] _, ⟨rfl, List.forall_mem_singleton.2 hs⟩,
        [_], _, .row [_] _, ⟨rfl, List.forall_mem_singleton.2 ht⟩, rfl⟩
    refine ⟨[_], _, .row [_] _, ⟨rfl, List.forall_mem_singleton.2 ?_⟩, ?_⟩
    · refine ⟨_, _, .packed "id" _ _ (by decide), ⟨rfl, ?_⟩, _, _, .omitted "none" _, ⟨rfl, nofun⟩,
        _, _, .single "flag" _ _, ⟨rfl, ?_⟩, _, _, .packed "list" _ _ (by decide), ⟨rfl, ?_⟩, rfl⟩
      · exact List.forall_mem_cons.2 ⟨⟨by decide, by decide⟩,
          List.forall_mem_singleton.2 ⟨by decide, by decide⟩⟩
      · exact List.forall_mem_singleton.2 (by decide : 7 < 256 ^ 1)
      · exact List.forall_mem_cons.2 ⟨hitem ⟨by decide, rfl⟩ (by decide),
          List.forall_mem_singleton.2 (hitem ⟨by decide, rfl⟩ (by decide))⟩
    · have hnan : Binary64.isNaN ⟨0x3FF8000000000000⟩ = false := rfl
      exact ⟨[_], _, .row [_] _, ⟨rfl, List.forall_mem_singleton.2 hnan⟩,
        [_], _, .row [_] _, ⟨rfl, List.forall_mem_singleton.2 ⟨by decide, rfl⟩⟩,
        [_], _, .row [_] _, ⟨rfl, List.forall_mem_singleton.2 ⟨rfl, rfl, by decide⟩⟩, rfl⟩
  have hdecode := decode_encode_within format hseek hnames hfits [1, 2] [3]
    (by rw [hbytes]; decide)
  rw [hbytes] at hdecode
  exact ⟨hseek, hnames, hfits, hbytes, hdecode.1, hdecode.2⟩

end Format

end BinaryLayout
