import BinaryLayout.Format
import BinaryLayout.Proofs.Accounting.Trace
import BinaryLayout.Proofs.Layout.Reads
import BinaryLayout.Proofs.Mapping
import Mathlib.Tactic.Ring

/-!
# How many values a run makes

The limit on values is checked against a number that is computed from the layout alone. This module
relates that number to what runs really do.

There are four groups.

* The static counts.  `Layout.total` is the exact number of values, `Layout.packs` the number of
  times that several values are packed, and `Layout.standing` the number of nodes that stand in the
  data when overwritten fields are gone.  `yield_eq_min_total` says that saturating arithmetic
  computes the exact number cut off at the greatest count.
* Records.  `nodesUnder_foldl_store` counts the nodes of the record that parts make.
* Runs.  `length_pushed` and `nodes_trace` say that a run pushes `total` values and leaves
  `standing` nodes, whatever the bytes are.
* The comparison.  `standing_le` bounds the nodes by the exact count and the packs, and
  `standing_eq` makes this an equality where no record gives one name to two fields.
-/

namespace BinaryLayout

/-! ## Static counts -/

namespace Layout

/-- The exact number of values that one run pushes, groups and all their repeats included. -/
def total : Layout → Nat
  | .done => 0
  | .field _ f count rest => f.yield count + rest.total
  | .group _ _ count body rest => count * (body.total + 1) + rest.total

/-- Whether several values of one record field are packed, as a number. -/
def packed (inRecord : Bool) (values : Nat) : Nat := if inRecord && 1 < values then 1 else 0

/-- The number of times that one run packs several values of a record field. -/
def packs : Bool → Layout → Nat
  | _, .done => 0
  | inRecord, .field _ f count rest => packed inRecord (f.yield count) + rest.packs inRecord
  | inRecord, .group _ kind count body rest =>
    packed inRecord count + count * body.packs (kind == .record) + rest.packs inRecord

/-- The names under which some value comes, as often as it does. -/
def suppliers : Layout → List String
  | .done => []
  | .field name f count rest => (if f.yield count = 0 then [] else name.toList) ++ rest.suppliers
  | .group name _ count _ rest => (if count = 0 then [] else name.toList) ++ rest.suppliers

/-- No record body gives one name to two fields that yield values. -/
def NamesDistinct : Layout → Prop
  | .done => True
  | .field _ _ _ rest => rest.NamesDistinct
  | .group _ kind _ body rest =>
    (kind = .record → body.suppliers.Nodup) ∧ body.NamesDistinct ∧ rest.NamesDistinct

/-- The nodes that stay of a record field with these values: none if it has no name or a later field
supplies the name, and otherwise the values' own and `w` for a packing sequence. -/
def share (w : Nat) (name : Option String) (later : List String) (values nodes : Nat) : Nat :=
  match name with
  | none => 0
  | some name => if name ∈ later then 0 else nodes + w * packed true values

/-- The number of nodes that one run leaves in the data, where a packing sequence counts as `w`
nodes. -/
def standing (w : Nat) : Bool → Layout → Nat
  | _, .done => 0
  | inRecord, .field name f count rest =>
    let values := f.yield count
    (if inRecord then share w name rest.suppliers values values else values)
      + rest.standing w inRecord
  | inRecord, .group name kind count body rest =>
    let nodes := count * (body.standing w (kind == .record) + 1)
    (if inRecord then share w name rest.suppliers count nodes else nodes)
      + rest.standing w inRecord

end Layout

/-! ## Saturating sums and products -/

/-- To cut off a factor at the greatest count is no loss where the product is cut off as well. -/
theorem Count.mul_min (m n : Nat) :
    Count.mul m (min n Count.greatest) = min (m * n) Count.greatest := by
  unfold Count.mul
  rcases Nat.eq_zero_or_pos m with rfl | hm
  · simp
  rcases Nat.le_total n Count.greatest with hn | hn
  · rw [Nat.min_eq_left hn]
  · -- both products pass the greatest count
    have hleft : Count.greatest ≤ m * Count.greatest := Nat.le_mul_of_pos_left _ hm
    have hright : Count.greatest ≤ m * n := Nat.le_trans hn (Nat.le_mul_of_pos_left _ hm)
    rw [Nat.min_eq_right hn, Nat.min_eq_right hleft, Nat.min_eq_right hright]

namespace Layout

/-- The yield is the exact number of values cut off at the greatest count. -/
theorem yield_eq_min_total (layout : Layout) :
    layout.yield = min layout.total Count.greatest := by
  induction layout with
  | done => rfl
  | field name f count rest ih =>
    rw [yield, ih, total]
    unfold Count.add
    omega
  | group name kind count body rest ihBody ihRest =>
    have hbody : Count.add body.yield 1 = min (body.total + 1) Count.greatest := by
      rw [ihBody]
      unfold Count.add
      omega
    rw [yield, hbody, ihRest, Count.mul_min, total]
    unfold Count.add
    omega

end Layout

/-! ## Records -/

namespace TracedPart

/-- The names under which parts bring data. -/
def suppliers (parts : List TracedPart) : List String :=
  parts.flatMap fun part => if part.data.length = 0 then [] else part.name.toList

theorem suppliers_cons (part : TracedPart) (parts : List TracedPart) :
    suppliers (part :: parts) =
      (if part.data.length = 0 then [] else part.name.toList) ++ suppliers parts := rfl

/-- The nodes that parts leave in a record. -/
def standing (w : Nat) : List TracedPart → Nat
  | [] => 0
  | part :: parts =>
    Layout.share w part.name (suppliers parts) part.data.length (Traced.nodesOf w part.data)
      + standing w parts

/-- Packing adds the nodes of a packing sequence and nothing else. -/
theorem nodes_of_pack? {w : Nat} {data : List Traced} {traced : Traced}
    (h : pack? data = some traced) :
    traced.nodes w = Traced.nodesOf w data + w * Layout.packed true data.length := by
  match data with
  | [] => simp [pack?] at h
  | [_] =>
    obtain rfl := Option.some.inj h
    simp [Traced.nodesOf, Layout.packed]
  | first :: second :: more =>
    obtain rfl := Option.some.inj h
    simp [Traced.nodes, Layout.packed]

theorem pack?_eq_none_iff {data : List Traced} : pack? data = none ↔ data = [] := by
  match data with
  | [] => simp [pack?]
  | [_] => simp [pack?]
  | _ :: _ :: _ => simp [pack?]

/-- What one part changes in a record: it takes out what stood under its name, and what it puts in
stays unless a later part brings data under that name. -/
theorem sumExcept_store (w : Nat) (part : TracedPart) (parts : List TracedPart)
    {fields : Mapping Traced} (h : fields.keys.Nodup) :
    (store fields part).sumExcept (Traced.nodes w) (suppliers parts) =
      fields.sumExcept (Traced.nodes w) (suppliers (part :: parts))
        + Layout.share w part.name (suppliers parts) part.data.length
            (Traced.nodesOf w part.data) := by
  obtain ⟨name, data⟩ := part
  cases name with
  | none => simp [store, suppliers, Layout.share]
  | some name =>
    cases hp : pack? data with
    | none =>
      obtain rfl := pack?_eq_none_iff.1 hp
      simp [store, hp, suppliers, Layout.share, Traced.nodesOf, Layout.packed]
    | some traced =>
      have hne : data ≠ [] := fun he => by simp [he, pack?] at hp
      simp only [store, hp]
      rw [Mapping.sumExcept_insert _ _ _ _ h, nodes_of_pack? hp]
      simp [suppliers, Layout.share, hne]

theorem nodup_keys_store (part : TracedPart) {fields : Mapping Traced} (h : fields.keys.Nodup) :
    (store fields part).keys.Nodup := by
  unfold store
  split
  · exact Mapping.nodup_keys_insert _ _ h
  · exact h

/-- The nodes of the record that parts make on top of some fields. -/
theorem sumExcept_foldl_store (w : Nat) (parts : List TracedPart) {fields : Mapping Traced}
    (h : fields.keys.Nodup) :
    (parts.foldl store fields).sumExcept (Traced.nodes w) [] =
      fields.sumExcept (Traced.nodes w) (suppliers parts) + standing w parts := by
  induction parts generalizing fields with
  | nil => rfl
  | cons part parts ih =>
    rw [List.foldl_cons, ih (nodup_keys_store part h), sumExcept_store w part parts h, standing]
    omega

end TracedPart

theorem Traced.nodesUnder_eq_sumExcept (w : Nat) (fields : Mapping Traced) :
    nodesUnder w fields = fields.sumExcept (nodes w) [] := by
  induction fields with
  | empty => rfl
  | entry name value rest ih => simp [nodesUnder, Mapping.sumExcept, ih]

/-- The nodes of the record that parts make. -/
theorem TracedPart.nodesUnder_foldl_store (w : Nat) (parts : List TracedPart) :
    Traced.nodesUnder w (parts.foldl store .empty) = standing w parts := by
  have hempty : (Mapping.empty : Mapping Traced).keys.Nodup := List.nodup_nil
  rw [Traced.nodesUnder_eq_sumExcept, sumExcept_foldl_store w parts hempty]
  exact Nat.zero_add _

/-! ## Runs -/

/-- Trees of one size. -/
theorem Traced.nodesOf_eq_mul {w k : Nat} {items : List Traced}
    (h : ∀ item ∈ items, item.nodes w = k) : nodesOf w items = items.length * k := by
  induction items with
  | nil => simp [nodesOf]
  | cons item items ih =>
    rw [List.forall_mem_cons] at h
    rw [nodesOf, h.1, ih h.2, List.length_cons, Nat.succ_mul, Nat.add_comm]

/-- A field reads leaves only. -/
theorem Field.nodes_read (f : Field) (count : Nat) (bytes : Payload) (p : Position) :
    ∀ datum ∈ (f.read count bytes p).1, datum.nodes = 1 := by
  cases f with
  | number field =>
    rw [read]
    exact forall_mem_readTimes _ (by intro q; rfl) count p
  | terminated =>
    rw [read]
    exact forall_mem_readTimes _ (by intro q; rfl) count p
  | text field =>
    intro datum hmem
    rw [List.mem_singleton.1 hmem]
    rfl
  | move step =>
    intro datum hmem
    cases hmem

namespace Layout

variable (bytes : Payload)

/-- A run pushes as many values as the layout says, wherever it starts. -/
theorem length_pushed (layout : Layout) (p : Position) :
    (layout.trace bytes p).pushed.length = layout.total := by
  induction layout generalizing p with
  | done => rfl
  | field name f count rest ih => simp [trace, total, ih]
  | group name kind count body rest ihBody ihRest =>
    have hlength : ∀ reading ∈ (readTimes (traceGroup bytes kind body) count p).1,
        (reading.2 ++ [reading.1]).length = body.total + 1 := by
      apply forall_mem_readTimes
      intro q
      simp [traceGroup, ihBody]
    rw [trace_group, total, List.length_append, ihRest, List.length_flatMap,
      List.map_congr_left hlength, List.map_const', List.sum_replicate_nat, length_readTimes]

/-- The names under which a run brings data. -/
theorem suppliers_trace (layout : Layout) (p : Position) :
    TracedPart.suppliers (layout.trace bytes p).parts = layout.suppliers := by
  induction layout generalizing p with
  | done => rfl
  | field name f count rest ih =>
    rw [trace, TracedPart.suppliers_cons, ih, suppliers]
    simp only [List.length_map, Field.length_read]
  | group name kind count body rest _ ihRest =>
    rw [trace_group, TracedPart.suppliers_cons, ihRest, suppliers]
    simp only [List.length_map, length_readTimes]

/-- The nodes that a run leaves: at top level and in arrays those of all parts, and in a record
those that stand. -/
theorem nodes_trace (w : Nat) (layout : Layout) (p : Position) :
    Traced.nodesOf w ((layout.trace bytes p).parts.flatMap TracedPart.data) =
        layout.standing w false ∧
      TracedPart.standing w (layout.trace bytes p).parts = layout.standing w true := by
  induction layout generalizing p with
  | done => exact ⟨rfl, rfl⟩
  | field name f count rest ih =>
    obtain ⟨hdata, hrecord⟩ := ih (f.read count bytes p).2
    have hleaves : Traced.nodesOf w ((f.read count bytes p).1.map Traced.leaf) = f.yield count := by
      rw [Traced.nodesOf_eq_mul (k := 1), List.length_map, Field.length_read, Nat.mul_one]
      intro item hmem
      obtain ⟨datum, hdatum, rfl⟩ := List.mem_map.1 hmem
      exact f.nodes_read count bytes p datum hdatum
    constructor
    · rw [trace, List.flatMap_cons, Traced.nodesOf_append, hdata, hleaves]
      rfl
    · rw [trace, TracedPart.standing, hrecord, suppliers_trace, hleaves, List.length_map,
        Field.length_read]
      rfl
  | group name kind count body rest ihBody ihRest =>
    have hgroup : ∀ reading ∈ (readTimes (traceGroup bytes kind body) count p).1,
        reading.1.nodes w = body.standing w (kind == .record) + 1 := by
      apply forall_mem_readTimes
      intro q
      obtain ⟨hdata, hrecord⟩ := ihBody q
      cases kind with
      | array => rw [traceGroup, TracedPart.assemble, Traced.nodes, hdata]; rfl
      | record =>
        rw [traceGroup, TracedPart.assemble, Traced.nodes, TracedPart.nodesUnder_foldl_store,
          hrecord]
        rfl
    obtain ⟨hdata, hrecord⟩ := ihRest (readTimes (traceGroup bytes kind body) count p).2
    have hgroups :
        Traced.nodesOf w ((readTimes (traceGroup bytes kind body) count p).1.map (·.1)) =
          count * (body.standing w (kind == .record) + 1) := by
      rw [Traced.nodesOf_eq_mul (k := body.standing w (kind == .record) + 1), List.length_map,
        length_readTimes]
      intro item hmem
      obtain ⟨reading, hreading, rfl⟩ := List.mem_map.1 hmem
      exact hgroup reading hreading
    constructor
    · rw [trace_group, List.flatMap_cons, Traced.nodesOf_append, hdata, hgroups]
      rfl
    · rw [trace_group, TracedPart.standing, hrecord, suppliers_trace, hgroups, List.length_map,
        length_readTimes]
      rfl

/-! ## The comparison -/

theorem packed_le (inRecord : Bool) (values : Nat) : packed inRecord values ≤ values := by
  unfold packed
  split
  · next h =>
    simp only [Bool.and_eq_true, decide_eq_true_eq] at h
    omega
  · exact Nat.zero_le _

theorem share_le (w : Nat) (name : Option String) (later : List String) (values nodes : Nat) :
    share w name later values nodes ≤ nodes + w * packed true values := by
  unfold share
  split
  · exact Nat.zero_le _
  · split
    · exact Nat.zero_le _
    · exact Nat.le_refl _

/-- Nothing is lost of a field whose name no later field supplies. -/
theorem share_eq {w : Nat} {name : String} {later : List String} {values nodes : Nat}
    (hlater : values ≠ 0 → name ∉ later) (hnodes : values = 0 → nodes = 0) :
    share w (some name) later values nodes = nodes + w * packed true values := by
  rw [share]
  split
  · next hmem =>
    have hzero : values = 0 := by
      by_contra hne
      exact hlater hne hmem
    simp [hnodes hzero, hzero, packed]
  · rfl

/-- A name that yields values and comes only once does not come later. -/
theorem notMem_of_nodup {values : Nat} {name : String} {later : List String}
    (h : ((if values = 0 then [] else (some name).toList) ++ later).Nodup) (hne : values ≠ 0) :
    name ∉ later := by
  rw [if_neg hne] at h
  exact (List.nodup_cons.1 h).1

/-- There are no more packs than values. -/
theorem packs_le_total (layout : Layout) (inRecord : Bool) :
    layout.packs inRecord ≤ layout.total := by
  induction layout generalizing inRecord with
  | done => exact Nat.le_refl _
  | field name f count rest ih =>
    have hpacked := packed_le inRecord (f.yield count)
    have hrest := ih inRecord
    rw [packs, total]
    omega
  | group name kind count body rest ihBody ihRest =>
    have hpacked := packed_le inRecord count
    have hbody := Nat.mul_le_mul_left count (ihBody (kind == .record))
    have hrest := ihRest inRecord
    rw [packs, total, Nat.mul_add]
    omega

/-- The nodes of a group's repeats as values and packs. -/
theorem mul_succ_add (count w values packs : Nat) :
    count * (values + w * packs + 1) = count * (values + 1) + w * (count * packs) := by
  ring

/-- The nodes that stand are at most the values that are pushed and the packs. -/
theorem standing_le (w : Nat) (layout : Layout) (inRecord : Bool) :
    layout.standing w inRecord ≤ layout.total + w * layout.packs inRecord := by
  induction layout generalizing inRecord with
  | done => exact Nat.zero_le _
  | field name f count rest ih =>
    have hrest := ih inRecord
    rw [standing, total, packs, Nat.mul_add]
    cases inRecord with
    | false =>
      simp only [Bool.false_eq_true, if_false]
      omega
    | true =>
      have hshare := share_le w name rest.suppliers (f.yield count) (f.yield count)
      simp only [if_true]
      omega
  | group name kind count body rest ihBody ihRest =>
    have hbody : count * (body.standing w (kind == .record) + 1) ≤
        count * (body.total + 1) + w * (count * body.packs (kind == .record)) := by
      rw [← mul_succ_add]
      exact Nat.mul_le_mul_left count (Nat.succ_le_succ (ihBody _))
    have hrest := ihRest inRecord
    rw [standing, total, packs, Nat.mul_add w, Nat.mul_add w]
    cases inRecord with
    | false =>
      simp only [Bool.false_eq_true, if_false]
      omega
    | true =>
      have hshare := share_le w name rest.suppliers count
        (count * (body.standing w (kind == .record) + 1))
      simp only [if_true]
      omega

/-- Where no record gives one name to two fields that yield values, every value that is pushed
stands, and every pack. -/
theorem standing_eq (w : Nat) {layout : Layout} {inRecord : Bool} (hnamed : layout.IsNamed inRecord)
    (hdistinct : layout.NamesDistinct) (hnodup : inRecord = true → layout.suppliers.Nodup) :
    layout.standing w inRecord = layout.total + w * layout.packs inRecord := by
  induction layout generalizing inRecord with
  | done => simp [standing, total, packs]
  | field name f count rest ih =>
    have hrest := ih hnamed.2 hdistinct (fun h => (List.nodup_append.1 (hnodup h)).2.1)
    rw [standing, total, packs, Nat.mul_add, hrest]
    cases inRecord with
    | false =>
      simp only [Bool.false_eq_true, if_false, packed, Bool.false_and]
      omega
    | true =>
      obtain ⟨key, rfl⟩ := Option.isSome_iff_exists.1 hnamed.1
      simp only [if_true]
      rw [share_eq (notMem_of_nodup (hnodup rfl)) (fun h => h)]
      omega
  | group name kind count body rest ihBody ihRest =>
    obtain ⟨hname, hbodyNamed, hrestNamed⟩ := hnamed
    obtain ⟨hbodyNodup, hbodyDistinct, hrestDistinct⟩ := hdistinct
    have hbody := ihBody hbodyNamed hbodyDistinct (fun h => hbodyNodup (by simpa using h))
    have hrest := ihRest hrestNamed hrestDistinct (fun h => (List.nodup_append.1 (hnodup h)).2.1)
    rw [standing, total, packs, Nat.mul_add w, Nat.mul_add w, hrest, hbody, mul_succ_add]
    cases inRecord with
    | false =>
      simp only [Bool.false_eq_true, if_false, packed, Bool.false_and]
      omega
    | true =>
      obtain ⟨key, rfl⟩ := Option.isSome_iff_exists.1 hname
      simp only [if_true]
      rw [share_eq (notMem_of_nodup (hnodup rfl)) (by intro hzero; simp [hzero])]
      omega

end Layout

end BinaryLayout
