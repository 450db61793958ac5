import BinaryLayout.Proofs.Layout.Limits
import BinaryLayout.Proofs.Layout.WellFormed
import BinaryLayout.Proofs.Mapping
import Mathlib.Tactic.Ring

/-!
# The keys of decoded mappings

A well-formed layout hands its names on: every part that the body of a record yields has a valid
name, so no part of a record is ever dropped for want of one, and the keys of all mappings in the
decoded data are valid names.

There are three groups.

* Mappings in a tree.  `Datum.mappings` lists them at every depth.
* Records.  `mem_toList_record` traces each entry of a record to the part that it comes from.
* Runs.  `nameFits_of_mem_run` and `haveFieldNames_of_mem_run` are the two inductions over a layout,
  and `wellFormed_of_ofText` is what they come to for a format.
-/

namespace BinaryLayout

/-! ## Mappings in a tree -/

namespace Datum

mutual

/-- The mappings in a tree, at every depth. -/
def mappings : Datum → List (Mapping Datum)
  | .number _ => []
  | .text _ => []
  | .sequence items => mappingsOf items
  | .mapping fields => fields :: mappingsUnder fields

/-- The mappings in several trees. -/
def mappingsOf : List Datum → List (Mapping Datum)
  | [] => []
  | datum :: data => datum.mappings ++ mappingsOf data

/-- The mappings in the values of a mapping. -/
def mappingsUnder : Mapping Datum → List (Mapping Datum)
  | .empty => []
  | .entry _ datum rest => datum.mappings ++ mappingsUnder rest

end

theorem mappingsOf_eq_flatMap (data : List Datum) : mappingsOf data = data.flatMap mappings := by
  induction data with
  | nil => rfl
  | cons datum data ih => rw [mappingsOf, ih, List.flatMap_cons]

theorem mappingsUnder_eq_flatMap (fields : Mapping Datum) :
    mappingsUnder fields = fields.toList.flatMap fun entry => entry.2.mappings := by
  induction fields with
  | empty => rfl
  | entry key value rest ih => rw [mappingsUnder, ih, Mapping.toList, List.flatMap_cons]

end Datum

/-! ## Records -/

theorem Mapping.eq_or_mem_of_mem_insert {α : Type} {key : String} {value : α} {m : Mapping α}
    {entry : String × α} (h : entry ∈ (m.insert key value).toList) :
    entry = (key, value) ∨ entry ∈ m.toList := by
  induction m with
  | empty => simpa [insert, toList] using h
  | entry k v rest ih =>
    by_cases hk : k = key
    · rw [insert, if_pos hk, toList, List.mem_cons] at h
      exact h.imp_right (List.mem_cons_of_mem _)
    · rw [insert, if_neg hk, toList, List.mem_cons] at h
      rw [toList, List.mem_cons]
      rcases h with h | h
      · exact .inr (.inl h)
      · exact (ih h).imp_right .inr

namespace Part

/-- Each entry of a record is what some part yields under its name, or stood there before. -/
theorem mem_toList_foldl_store {parts : List Part} {fields : Mapping Datum}
    {entry : String × Datum} (h : entry ∈ (parts.foldl store fields).toList) :
    entry ∈ fields.toList ∨
      ∃ part ∈ parts, part.name = some entry.1 ∧ pack? part.data = some entry.2 := by
  induction parts generalizing fields with
  | nil => exact .inl h
  | cons part parts ih =>
    rcases ih h with hstored | ⟨other, hmem, hother⟩
    · unfold store at hstored
      split at hstored
      · next name datum hname hpack =>
        rcases Mapping.eq_or_mem_of_mem_insert hstored with rfl | hfields
        · exact .inr ⟨part, List.mem_cons_self, hname, hpack⟩
        · exact .inl hfields
      · exact .inl hstored
    · exact .inr ⟨other, List.mem_cons_of_mem _ hmem, hother⟩

/-- Each entry of a record is what some part yields under its name. -/
theorem mem_toList_record {parts : List Part} {entry : String × Datum}
    (h : entry ∈ (record parts).toList) :
    ∃ part ∈ parts, part.name = some entry.1 ∧ pack? part.data = some entry.2 := by
  rcases mem_toList_foldl_store h with hempty | hpart
  · cases hempty
  · exact hpart

theorem nodup_keys_foldl_store (parts : List Part) {fields : Mapping Datum}
    (h : fields.keys.Nodup) : (parts.foldl store fields).keys.Nodup := by
  induction parts generalizing fields with
  | nil => exact h
  | cons part parts ih =>
    refine ih ?_
    unfold store
    split
    · exact Mapping.nodup_keys_insert _ _ h
    · exact h

/-- Packing adds no mapping. -/
theorem mappings_of_pack? {data : List Datum} {datum : Datum} (h : pack? data = some datum) :
    datum.mappings = Datum.mappingsOf data := by
  match data with
  | [] => cases h
  | [_] =>
    cases h
    simp [Datum.mappingsOf]
  | _ :: _ :: _ =>
    cases h
    rfl

end Part

/-! ## Runs -/

/-- The keys are distinct, and each of them is a valid field name. -/
def Mapping.HasFieldNames (fields : Mapping Datum) : Prop :=
  fields.keys.Nodup ∧ ∀ key ∈ fields.keys, FieldName.IsValid key.toList

/-- All mappings in these data have field names for keys. -/
def Datum.HaveFieldNames (data : List Datum) : Prop :=
  ∀ fields ∈ Datum.mappingsOf data, fields.HasFieldNames

namespace Datum

theorem haveFieldNames_iff {data : List Datum} :
    HaveFieldNames data ↔ ∀ datum ∈ data, ∀ fields ∈ datum.mappings, fields.HasFieldNames := by
  simp only [HaveFieldNames, mappingsOf_eq_flatMap, List.mem_flatMap]
  exact ⟨fun h datum hdatum fields hfields => h fields ⟨datum, hdatum, hfields⟩,
    fun h fields ⟨datum, hdatum, hfields⟩ => h datum hdatum fields hfields⟩

end Datum

/-- A field reads no mappings. -/
theorem Field.mappings_read (f : Field) (count : Nat) (bytes : Payload) (p : Position) :
    ∀ datum ∈ (f.read count bytes p).1, datum.mappings = [] := by
  cases f with
  | number field =>
    rw [read]
    exact forall_mem_readTimes _ (by intro q; rfl) count p
  | terminated =>
    rw [read]
    exact forall_mem_readTimes _ (by intro q; rfl) count p
  | text field =>
    intro datum hmem
    rw [List.mem_singleton.1 hmem]
    rfl
  | move step =>
    intro datum hmem
    cases hmem

namespace Layout

/-- The bodies of the records in a layout, at every depth. -/
def records : Layout → List Layout
  | .done => []
  | .field _ _ _ rest => rest.records
  | .group _ kind _ body rest =>
    (if kind = .record then [body] else []) ++ body.records ++ rest.records

/-- The bodies of the records in a well-formed layout are well formed. -/
theorem IsWellFormed.of_mem_records {inRecord : Bool} {layout body : Layout}
    (h : layout.IsWellFormed inRecord) (hmem : body ∈ layout.records) :
    body.IsWellFormed true := by
  induction layout generalizing inRecord with
  | done => cases hmem
  | field _ _ _ _ ih => exact ih h.2.2 hmem
  | group _ kind _ inner _ ihBody ihRest =>
    obtain ⟨_, _, _, hbody, hrest⟩ := h
    rw [records, List.mem_append, List.mem_append] at hmem
    rcases hmem with (hself | hinner) | hlater
    · cases kind with
      | array => simp at hself
      | record =>
        obtain rfl : body = inner := by simpa using hself
        exact hbody
    · exact ihBody hbody hinner
    · exact ihRest hrest hlater

variable (bytes : Payload)

/-- All parts that a well-formed layout yields are called as their place asks. -/
theorem nameFits_of_mem_run {inRecord : Bool} {layout : Layout} (h : layout.IsWellFormed inRecord)
    (p : Position) : ∀ part ∈ (layout.run bytes p).1, NameFits inRecord part.name := by
  induction layout generalizing p with
  | done => exact nofun
  | field name f count rest ih =>
    rw [run_field]
    exact List.forall_mem_cons.2 ⟨h.1, ih h.2.2 _⟩
  | group name kind count body rest _ ihRest =>
    rw [run_group]
    exact List.forall_mem_cons.2 ⟨h.1, ihRest h.2.2.2.2 _⟩

/-- A part of a record has a valid name. -/
theorem NameFits.exists_name {name : Option String} (h : NameFits true name) :
    ∃ key, name = some key ∧ FieldName.IsValid key.toList := by
  cases name with
  | none => exact h.elim
  | some key => exact ⟨key, rfl, h⟩

/-- A group whose parts have field names for keys, and names themselves if it is a record, makes a
datum with field names for keys. -/
theorem hasFieldNames_assemble {kind : GroupKind} {parts : List Part}
    (hnames : ∀ part ∈ parts, NameFits (kind == .record) part.name)
    (hdata : ∀ part ∈ parts, Datum.HaveFieldNames part.data) :
    ∀ fields ∈ (kind.assemble parts).mappings, fields.HasFieldNames := by
  cases kind with
  | array =>
    intro fields hfields
    rw [GroupKind.assemble, Datum.mappings, Datum.mappingsOf_eq_flatMap, Part.flatten,
      List.flatMap_assoc, List.mem_flatMap] at hfields
    obtain ⟨part, hpart, hfields⟩ := hfields
    rw [← Datum.mappingsOf_eq_flatMap] at hfields
    exact hdata part hpart fields hfields
  | record =>
    intro fields hfields
    rw [GroupKind.assemble, Datum.mappings, List.mem_cons] at hfields
    rcases hfields with rfl | hfields
    · refine ⟨Part.nodup_keys_foldl_store parts List.nodup_nil, fun key hkey => ?_⟩
      obtain ⟨entry, hentry, rfl⟩ := List.mem_map.1 hkey
      obtain ⟨part, hpart, hname, _⟩ := Part.mem_toList_record hentry
      obtain ⟨key, hkey, hvalid⟩ := NameFits.exists_name (hnames part hpart)
      rw [hname] at hkey
      cases hkey
      exact hvalid
    · rw [Datum.mappingsUnder_eq_flatMap, List.mem_flatMap] at hfields
      obtain ⟨entry, hentry, hfields⟩ := hfields
      obtain ⟨part, hpart, _, hpack⟩ := Part.mem_toList_record hentry
      rw [Part.mappings_of_pack? hpack] at hfields
      exact hdata part hpart fields hfields

/-- The mappings that a well-formed layout yields have field names for keys. -/
theorem haveFieldNames_of_mem_run {inRecord : Bool} {layout : Layout}
    (h : layout.IsWellFormed inRecord) (p : Position) :
    ∀ part ∈ (layout.run bytes p).1, Datum.HaveFieldNames part.data := by
  induction layout generalizing inRecord p with
  | done => exact nofun
  | field name f count rest ih =>
    rw [run_field]
    refine List.forall_mem_cons.2 ⟨Datum.haveFieldNames_iff.2 fun datum hdatum => ?_, ih h.2.2 _⟩
    rw [f.mappings_read count bytes p datum hdatum]
    exact nofun
  | group name kind count body rest ihBody ihRest =>
    obtain ⟨_, _, _, hbody, hrest⟩ := h
    rw [run_group]
    refine List.forall_mem_cons.2 ⟨Datum.haveFieldNames_iff.2 ?_, ihRest hrest _⟩
    refine forall_mem_readTimes _ (fun q => ?_) count p
    exact hasFieldNames_assemble (nameFits_of_mem_run bytes hbody q) (ihBody hbody q)

/-- The data that a well-formed layout decodes have field names for keys. -/
theorem haveFieldNames_decode {layout : Layout} (h : layout.IsWellFormed false)
    (offset : Int) : Datum.HaveFieldNames (layout.decode bytes offset) := by
  rw [Datum.haveFieldNames_iff]
  intro datum hdatum
  obtain ⟨part, hpart, hdatum⟩ := List.mem_flatMap.1 hdatum
  exact Datum.haveFieldNames_iff.1 (haveFieldNames_of_mem_run bytes h _ part hpart) datum hdatum

end Layout

namespace Format

/-- The layout of a format is well formed and its groups keep to the limit.  So every part that the
body of a record yields has a name, in every run and at every depth, and the keys of each mapping
in the decoded data are distinct field names. -/
theorem wellFormed_of_ofText {limits : Limits} {source : String} {format : Format}
    (h : ofText limits source = .ok format) :
    format.layout.IsWellFormed false ∧
      format.layout.depth ≤ limits.depth.toNat ∧
      (∀ body ∈ format.layout.records, ∀ (bytes : Payload) (p : Position),
        ∀ part ∈ (body.run bytes p).1, part.name.isSome) ∧
      ∀ (bytes : Payload) (offset : Int),
        ∀ fields ∈ Datum.mappingsOf (format.decode bytes offset),
          fields.keys.Nodup ∧ ∀ key ∈ fields.keys, FieldName.IsValid key.toList := by
  have hparse := (ofText_eq_ok_iff.1 h).1
  obtain ⟨left, hreads⟩ := Layout.reads_of_parse hparse
  have hformed : format.layout.IsWellFormed false := hreads.isWellFormed
  refine ⟨hformed, Layout.depth_le_of_parse hparse, ?_, fun bytes offset => ?_⟩
  · intro body hbody bytes p part hpart
    have hfits := Layout.nameFits_of_mem_run bytes (hformed.of_mem_records hbody) p part hpart
    obtain ⟨key, hname, _⟩ := Layout.NameFits.exists_name hfits
    rw [hname]
    rfl
  · exact Layout.haveFieldNames_decode bytes hformed offset

theorem ofText_hidden_brace :
    ofText {} "\x7ba\\\x7d:C list:[2 \x7bb:S\x7d]\x7d" =
      .ok ⟨"\x7ba\\\x7d:C list:[2 \x7bb:S\x7d]\x7d",
        .group none .record 1
          (.field (some "a\\\x7d") (.number (.byte .unsigned)) 1
            (.group (some "list") .array 2
              (.group none .record 1
                (.field (some "b") (.number (.word .unsigned .two .big)) 1 .done) .done) .done))
          .done⟩ := by
  decide +kernel

/-- Records in an array in a record, and a name with a brace in it. -/
theorem wellFormed_of_hidden_brace :
    ∃ format, ofText {} "\x7ba\\\x7d:C list:[2 \x7bb:S\x7d]\x7d" = .ok format ∧
      format.layout.IsWellFormed false ∧ format.layout.depth = 3 ∧ format.layout.depth ≤ 64 ∧
      (∀ body ∈ format.layout.records, ∀ part ∈ (body.run #[1, 2, 3] 0).1, part.name.isSome) ∧
      ∀ fields ∈ Datum.mappingsOf (format.decode #[1, 2, 3] 0),
        fields.keys.Nodup ∧ ∀ key ∈ fields.keys, FieldName.IsValid key.toList := by
  obtain ⟨hformed, hdepth, hnames, hkeys⟩ := wellFormed_of_ofText ofText_hidden_brace
  refine ⟨_, ofText_hidden_brace, hformed, rfl, hdepth, ?_, hkeys #[1, 2, 3] 0⟩
  exact fun body hbody => hnames body hbody #[1, 2, 3] 0

end Format

end BinaryLayout
