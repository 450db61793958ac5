import BinaryLayout.Proofs.Accounting.Values

/-!
# What the limit on values promises

A format is accepted if its exact number of values is at most the limit, as long as the limit is
below the greatest count.  A run pushes exactly that number of values (`values_of_ofText`).  The
decoded data can still have more nodes than the limit allows: a sequence that packs several values
of one record field is a node that nothing pushes.  `nodes_decode_of_ofText` gives the exact number
of nodes and with it the condition under which the limit bounds them.
-/

namespace BinaryLayout

namespace Layout

/-- A layout that was read keeps names to records. -/
theorem isNamed_of_ofText {limits : Limits} {source : String} {format : Format}
    (h : Format.ofText limits source = .ok format) : format.layout.IsNamed false := by
  obtain ⟨left, hreads⟩ := reads_of_parse (Format.ofText_eq_ok_iff.1 h).1
  exact hreads.isNamed

/-- Under a limit below the greatest count nothing is cut off. -/
theorem total_le_of_ofText {limits : Limits} {source : String} {format : Format}
    (h : Format.ofText limits source = .ok format)
    (hvalues : limits.values.toNat < Count.greatest) :
    format.layout.total ≤ limits.values.toNat := by
  have hyield := (Format.ofText_eq_ok_iff.1 h).2.1
  rw [yield_eq_min_total] at hyield
  omega

/-- The nodes of the decoded data, where a packing sequence counts as `w` nodes. -/
theorem nodesOf_traced (w : Nat) (layout : Layout) (bytes : Payload) (offset : Int) :
    Traced.nodesOf w (layout.traced bytes offset) = layout.standing w false :=
  (nodes_trace bytes w layout (Position.ofOffset offset)).1

/-- All nodes of the decoded data. -/
theorem nodesOf_decode (layout : Layout) (bytes : Payload) (offset : Int) :
    Datum.nodesOf (layout.decode bytes offset) = layout.standing 1 false := by
  rw [← nodesOf_traced 1 layout bytes offset, ← Traced.nodesOf_dataOf, Traced.dataOf_eq_map,
    datum_traced]

end Layout

namespace Format

/-- The number that a format is judged by is its exact number of values, cut off at the greatest
count.  Every run pushes exactly that number, whatever the bytes and the offset are.  The nodes of
the data, packing sequences apart, are at most as many, and just as many if no record body gives one
name to two fields that yield values. -/
theorem values_of_ofText {limits : Limits} {source : String} {format : Format}
    (h : ofText limits source = .ok format) :
    format.layout.yield = min format.layout.total Count.greatest ∧
      ∀ (bytes : Payload) (offset : Int),
        (format.layout.traced bytes offset).map Traced.datum = format.decode bytes offset ∧
        (format.layout.pushed bytes offset).length = format.layout.total ∧
        Traced.nodesOf 0 (format.layout.traced bytes offset) ≤ format.layout.total ∧
        (format.layout.NamesDistinct →
          Traced.nodesOf 0 (format.layout.traced bytes offset) = format.layout.total) := by
  refine ⟨format.layout.yield_eq_min_total, fun bytes offset => ⟨?_, ?_, ?_, ?_⟩⟩
  · exact format.layout.datum_traced bytes offset
  · exact format.layout.length_pushed bytes (Position.ofOffset offset)
  · have hle := format.layout.standing_le 0 false
    rw [Layout.nodesOf_traced]
    omega
  · intro hdistinct
    have heq := Layout.standing_eq 0 (Layout.isNamed_of_ofText h) hdistinct (by simp)
    rw [Layout.nodesOf_traced]
    omega

/-- Two records with a packed field, and three arrays: fourteen values are pushed, and all stand. -/
theorem values_of_records_and_arrays :
    ∃ format, ofText {} "{2 a:C2, b:S}[3 Z+]" = .ok format ∧ format.layout.yield = 14 ∧
      ∀ (bytes : Payload) (offset : Int),
        (format.layout.pushed bytes offset).length = 14 ∧
        Traced.nodesOf 0 (format.layout.traced bytes offset) = 14 := by
  have h : ofText {} "{2 a:C2, b:S}[3 Z+]" = .ok ⟨"{2 a:C2, b:S}[3 Z+]", .group none .record 2
      (.field (some "a") (.number (.byte .unsigned)) 2
        (.field (some "b") (.number (.word .unsigned .two .big)) 1 .done))
      (.group none .array 3 (.field none .terminated 1 .done) .done)⟩ := by
    decide +kernel
  obtain ⟨hyield, hruns⟩ := values_of_ofText h
  refine ⟨_, h, hyield, fun bytes offset => ?_⟩
  obtain ⟨_, hpushed, _, hstanding⟩ := hruns bytes offset
  exact ⟨hpushed, hstanding (by simp [Layout.NamesDistinct, Layout.suppliers, Field.yield])⟩

/-- The data that a format decodes have the same number of nodes for all bytes and offsets, and the
limit bounds the data exactly if it bounds that number. The number exceeds the number of values by
packing sequences only, so the limit does bound the data where no record field is packed, and twice
the limit is never exceeded. -/
theorem nodes_decode_of_ofText {limits : Limits} {source : String} {format : Format}
    (h : ofText limits source = .ok format) (hvalues : limits.values.toNat < Count.greatest) :
    (∀ (bytes : Payload) (offset : Int),
        Datum.nodesOf (format.decode bytes offset) = format.layout.standing 1 false) ∧
      ((∀ (bytes : Payload) (offset : Int),
          Datum.nodesOf (format.decode bytes offset) ≤ limits.values.toNat) ↔
        format.layout.standing 1 false ≤ limits.values.toNat) ∧
      format.layout.standing 1 false ≤ limits.values.toNat + format.layout.packs false ∧
      format.layout.standing 1 false ≤ 2 * limits.values.toNat ∧
      (format.layout.NamesDistinct →
        format.layout.standing 1 false = format.layout.total + format.layout.packs false) := by
  have hnodes (bytes : Payload) (offset : Int) :
      Datum.nodesOf (format.decode bytes offset) = format.layout.standing 1 false :=
    format.layout.nodesOf_decode bytes offset
  have htotal := Layout.total_le_of_ofText h hvalues
  have hpacks := format.layout.packs_le_total false
  have hstanding := format.layout.standing_le 1 false
  refine ⟨hnodes, ⟨fun hbound => ?_, fun hle bytes offset => ?_⟩, by omega, by omega, ?_⟩
  · rw [← hnodes #[] 0]
    exact hbound #[] 0
  · rw [hnodes]
    exact hle
  · intro hdistinct
    have heq := Layout.standing_eq 1 (Layout.isNamed_of_ofText h) hdistinct (by simp)
    omega

theorem ofText_packed_field :
    ofText ⟨64, 3⟩ "{a:C2}" = .ok ⟨"{a:C2}", .group none .record 1
      (.field (some "a") (.number (.byte .unsigned)) 2 .done) .done⟩ := by
  decide +kernel

/-- A record with one packed field, and the least limit that accepts it: all data have one node more
than the limit. -/
theorem nodes_decode_of_packed_field :
    ∃ format, ofText ⟨64, 3⟩ "{a:C2}" = .ok format ∧
      ∀ (bytes : Payload) (offset : Int), Datum.nodesOf (format.decode bytes offset) = 4 := by
  obtain ⟨hnodes, _⟩ := nodes_decode_of_ofText ofText_packed_field (by decide)
  exact ⟨_, ofText_packed_field, hnodes⟩

/-- The limit on values does not bound the nodes of the decoded data. -/
theorem not_nodes_decode_le_values :
    ¬ ∀ (limits : Limits) (source : String) (format : Format),
      ofText limits source = .ok format → limits.values.toNat < Count.greatest →
        ∀ (bytes : Payload) (offset : Int),
          Datum.nodesOf (format.decode bytes offset) ≤ limits.values.toNat := by
  intro hbound
  have hle := hbound _ _ _ ofText_packed_field (by decide) #[1, 2] 0
  rw [decode, Layout.nodesOf_decode] at hle
  exact absurd hle (by decide)

end Format

end BinaryLayout
