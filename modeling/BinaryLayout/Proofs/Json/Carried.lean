import BinaryLayout.Proofs.Json.ReadBack
import BinaryLayout.Proofs.Layout.Keys
import BinaryLayout.Proofs.Mapping.Writes

/-!
# The JSON text carries the tree

Decoded data is printed so that nothing of it is lost: a strict reader gets back the plain data of
the tree, whichever of the two spacings it was printed with.  The spacings differ only in white
space between the parts of the text, and the compact one is a single line.

There are four groups.

* Distinct keys.  Mappings that were built by writing to them make objects without repeated keys
  (`Datum.hasDistinctKeys_plain`).
* White space.  `Datum.closeUp_write` is the induction over the tree for its text without the white
  space outside strings.
* One line.  `Datum.le_toNat_of_mem_write` is that for the characters of a compact text.
* The text carries the tree.  `Datum.print_carries` puts these together.
-/

namespace BinaryLayout

open Json

/-! ## Distinct keys -/

/-- Whether no object has two members with the same key, at any depth. -/
inductive PlainData.HasDistinctKeys : PlainData → Prop
  | null : HasDistinctKeys .null
  | boolean (b : Bool) : HasDistinctKeys (.boolean b)
  | integer (n : Int) : HasDistinctKeys (.integer n)
  | decimal (token : String) : HasDistinctKeys (.decimal token)
  | string (s : String) : HasDistinctKeys (.string s)
  | list {items : List PlainData} (h : ∀ item ∈ items, HasDistinctKeys item) :
    HasDistinctKeys (.list items)
  | object {members : List (String × PlainData)} (hkeys : (members.map (·.1)).Nodup)
    (h : ∀ member ∈ members, HasDistinctKeys member.2) : HasDistinctKeys (.object members)

theorem Number.hasDistinctKeys_plain (n : Number) : n.plain.HasDistinctKeys := by
  cases n with
  | unsigned n => exact .integer _
  | signed n => exact .integer _
  | float x =>
    rw [plain]
    split
    · exact .null
    · exact .decimal _

namespace Datum

theorem map_fst_plainFields (fields : Mapping Datum) :
    (plainFields fields).map (·.1) = fields.keys := by
  induction fields with
  | empty => rfl
  | entry key value fields ih => rw [plainFields, List.map_cons, ih, Mapping.keys_entry]

mutual

/-- Where no mapping has a name twice, no object has a key twice. -/
theorem hasDistinctKeys_plain : ∀ d : Datum, (∀ m ∈ d.mappings, m.keys.Nodup) →
    d.plain.HasDistinctKeys
  | .number n, _ => n.hasDistinctKeys_plain
  | .text s, _ => .string s
  | .sequence items, h => .list (hasDistinctKeys_plainItems items h)
  | .mapping fields, h => by
    rw [mappings, List.forall_mem_cons] at h
    refine .object ?_ (hasDistinctKeys_plainFields fields h.2)
    rw [map_fst_plainFields]
    exact h.1

theorem hasDistinctKeys_plainItems : ∀ items : List Datum,
    (∀ m ∈ mappingsOf items, m.keys.Nodup) → ∀ item ∈ plainItems items, item.HasDistinctKeys
  | [], _ => fun _ h => absurd h List.not_mem_nil
  | item :: items, h => by
    rw [mappingsOf, List.forall_mem_append] at h
    rw [plainItems, List.forall_mem_cons]
    exact ⟨hasDistinctKeys_plain item h.1, hasDistinctKeys_plainItems items h.2⟩

theorem hasDistinctKeys_plainFields : ∀ fields : Mapping Datum,
    (∀ m ∈ mappingsUnder fields, m.keys.Nodup) →
      ∀ member ∈ plainFields fields, member.2.HasDistinctKeys
  | .empty, _ => fun _ h => absurd h List.not_mem_nil
  | .entry key value fields, h => by
    rw [mappingsUnder, List.forall_mem_append] at h
    rw [plainFields, List.forall_mem_cons]
    exact ⟨hasDistinctKeys_plain value h.1, hasDistinctKeys_plainFields fields h.2⟩

end

end Datum

/-! ## White space -/

/-- Nothing in a number is taken for white space or for the beginning of a string. -/
theorem Json.Numeral.standsForItself_of_mem_write {numeral : Numeral} (h : numeral.Regular) :
    ∀ c ∈ numeral.write, isBlank c = false ∧ StandsForItself c := by
  intro c hc
  rcases Numeral.of_mem_write h hc with hdigit | hc
  · have hstarts : startsNumber c = true := by rw [startsNumber, hdigit, Bool.or_true]
    have hlow : '0'.toNat ≤ c.toNat :=
      UInt32.le_iff_toNat_le.1 (of_decide_eq_true (Bool.and_eq_true_iff.1 hdigit).1)
    exact ⟨isBlank_of_startsNumber hstarts, ne_of_startsNumber hstarts rfl,
      ne_of_startsNumber hstarts rfl, Nat.le_trans (by decide) hlow⟩
  · simp only [List.mem_cons, List.not_mem_nil, or_false] at hc
    rcases hc with rfl | rfl | rfl | rfl <;> exact ⟨rfl, by unfold StandsForItself; decide⟩

/-- What stands in front of a member loses the white space around its key, and none inside it. -/
theorem Json.closeUp_key (spacing : Spacing) (depth : Nat) (key : String) (text : List Char) :
    closeUp .outside (spacing.newline depth ++ quote key ++ spacing.colon ++ text) =
      Spacing.newline .compact depth ++ quote key ++ Spacing.colon .compact ++
        closeUp .outside text := by
  obtain ⟨gap, hcolon, hgap⟩ := exists_colon_eq spacing
  rw [hcolon, List.append_assoc, List.append_assoc, closeUp_blanks isBlank_of_mem_newline,
    closeUp_quote, List.cons_append, closeUp_cons rfl (by decide), closeUp_blanks hgap]
  simp [Spacing.newline, Spacing.colon]

namespace Datum

mutual

/-- Taking the white space away and closing up the spacing come to the same. -/
theorem closeUp_write (spacing : Spacing) : ∀ (d : Datum) (depth : Nat) (rest : List Char),
    closeUp .outside (write spacing depth d.toJson rest) =
      write .compact depth d.toJson (closeUp .outside rest)
  | .number n, depth, rest => by
    rcases n.toJson_cases with ⟨hnull, _⟩ | ⟨numeral, hregular, htoken, _⟩
    · rw [toJson, hnull, write, write]
      exact closeUp_part ['n', 'u', 'l', 'l'] (by simp [isBlank]) rest
    · have hpart : ∀ c ∈ numeral.write, isBlank c = false ∧ c ≠ '"' := fun c hc =>
        (Numeral.standsForItself_of_mem_write hregular c hc).imp_right And.left
      rw [toJson, htoken, write, write, String.toList_ofList, closeUp_part _ hpart]
  | .text s, depth, rest => closeUp_quote s rest
  | .sequence [], depth, rest => closeUp_part ['[', ']'] (by simp [isBlank]) rest
  | .sequence (item :: items), depth, rest => by
    show closeUp .outside ('[' :: (spacing.newline (depth + 1) ++ write spacing (depth + 1)
      item.toJson (writeItems spacing (depth + 1) (itemsToJson items)
        (spacing.newline depth ++ ']' :: rest)))) = _
    rw [closeUp_cons rfl (by decide), closeUp_blanks isBlank_of_mem_newline,
      closeUp_write spacing item, closeUp_writeItems spacing items,
      closeUp_blanks isBlank_of_mem_newline, closeUp_cons rfl (by decide)]
    rfl
  | .mapping .empty, depth, rest => closeUp_part ['\x7b', '\x7d'] (by simp [isBlank]) rest
  | .mapping (.entry key value fields), depth, rest => by
    show closeUp .outside ('\x7b' :: (spacing.newline (depth + 1) ++ quote key ++ spacing.colon ++
      write spacing (depth + 1) value.toJson (writeMembers spacing (depth + 1) (fieldsToJson fields)
        (spacing.newline depth ++ '\x7d' :: rest)))) = _
    rw [closeUp_cons rfl (by decide), closeUp_key, closeUp_write spacing value,
      closeUp_writeMembers spacing fields, closeUp_blanks isBlank_of_mem_newline,
      closeUp_cons rfl (by decide)]
    rfl

theorem closeUp_writeItems (spacing : Spacing) : ∀ (items : List Datum) (depth : Nat)
    (rest : List Char),
      closeUp .outside (writeItems spacing depth (itemsToJson items) rest) =
        writeItems .compact depth (itemsToJson items) (closeUp .outside rest)
  | [], depth, rest => rfl
  | item :: items, depth, rest => by
    show closeUp .outside (',' :: (spacing.newline depth ++ write spacing depth item.toJson
      (writeItems spacing depth (itemsToJson items) rest))) = _
    rw [closeUp_cons rfl (by decide), closeUp_blanks isBlank_of_mem_newline,
      closeUp_write spacing item, closeUp_writeItems spacing items]
    rfl

theorem closeUp_writeMembers (spacing : Spacing) : ∀ (fields : Mapping Datum) (depth : Nat)
    (rest : List Char),
      closeUp .outside (writeMembers spacing depth (fieldsToJson fields) rest) =
        writeMembers .compact depth (fieldsToJson fields) (closeUp .outside rest)
  | .empty, depth, rest => rfl
  | .entry key value fields, depth, rest => by
    show closeUp .outside (',' :: (spacing.newline depth ++ quote key ++ spacing.colon ++
      write spacing depth value.toJson (writeMembers spacing depth (fieldsToJson fields) rest))) = _
    rw [closeUp_cons rfl (by decide), closeUp_key, closeUp_write spacing value,
      closeUp_writeMembers spacing fields]
    rfl

end

/-- Without its white space between strings, a text is the compact one. -/
theorem closeUp_print (spacing : Spacing) (d : Datum) :
    closeUp .outside (d.toJson.print spacing).toList = (d.toJson.print .compact).toList := by
  rw [print, print, String.toList_ofList, String.toList_ofList, closeUp_write spacing d]
  rfl

/-! ## One line -/

theorem le_toNat_of_mem_key (key : String) {text : List Char} (h : ∀ c ∈ text, 0x20 ≤ c.toNat) :
    ∀ c ∈ quote key ++ Spacing.colon .compact ++ text, 0x20 ≤ c.toNat := by
  rw [List.forall_mem_append, List.forall_mem_append]
  exact ⟨⟨fun c hc => le_toNat_of_mem_quote hc, by simp [Spacing.colon]⟩, h⟩

mutual

/-- No control character is written in front of a text that has none. -/
theorem le_toNat_of_mem_write : ∀ (d : Datum) (depth : Nat) (rest : List Char),
    (∀ c ∈ rest, 0x20 ≤ c.toNat) → ∀ c ∈ write .compact depth d.toJson rest, 0x20 ≤ c.toNat
  | .number n, depth, rest, h => by
    rcases n.toJson_cases with ⟨hnull, _⟩ | ⟨numeral, hregular, htoken, _⟩
    · rw [toJson, hnull, write]
      simpa using h
    · rw [toJson, htoken, write, String.toList_ofList, List.forall_mem_append]
      exact ⟨fun c hc => (Numeral.standsForItself_of_mem_write hregular c hc).2.2.2, h⟩
  | .text s, depth, rest, h => by
    rw [toJson, write, List.forall_mem_append]
    exact ⟨fun c hc => le_toNat_of_mem_quote hc, h⟩
  | .sequence [], depth, rest, h => by
    show ∀ c ∈ '[' :: ']' :: rest, 0x20 ≤ c.toNat
    simpa using h
  | .sequence (item :: items), depth, rest, h => by
    have hend : ∀ c ∈ ']' :: rest, 0x20 ≤ c.toNat := List.forall_mem_cons.2 ⟨by decide, h⟩
    have hitems := le_toNat_of_mem_writeItems items (depth + 1) _ hend
    exact List.forall_mem_cons.2 ⟨by decide, le_toNat_of_mem_write item (depth + 1) _ hitems⟩
  | .mapping .empty, depth, rest, h => by
    show ∀ c ∈ '\x7b' :: '\x7d' :: rest, 0x20 ≤ c.toNat
    simpa using h
  | .mapping (.entry key value fields), depth, rest, h => by
    have hend : ∀ c ∈ '\x7d' :: rest, 0x20 ≤ c.toNat := List.forall_mem_cons.2 ⟨by decide, h⟩
    have hfields := le_toNat_of_mem_writeMembers fields (depth + 1) _ hend
    have hvalue := le_toNat_of_mem_write value (depth + 1) _ hfields
    exact List.forall_mem_cons.2 ⟨by decide, le_toNat_of_mem_key key hvalue⟩

theorem le_toNat_of_mem_writeItems : ∀ (items : List Datum) (depth : Nat) (rest : List Char),
    (∀ c ∈ rest, 0x20 ≤ c.toNat) →
      ∀ c ∈ writeItems .compact depth (itemsToJson items) rest, 0x20 ≤ c.toNat
  | [], depth, rest, h => h
  | item :: items, depth, rest, h => by
    have hitems := le_toNat_of_mem_writeItems items depth rest h
    exact List.forall_mem_cons.2 ⟨by decide, le_toNat_of_mem_write item depth _ hitems⟩

theorem le_toNat_of_mem_writeMembers : ∀ (fields : Mapping Datum) (depth : Nat)
    (rest : List Char), (∀ c ∈ rest, 0x20 ≤ c.toNat) →
      ∀ c ∈ writeMembers .compact depth (fieldsToJson fields) rest, 0x20 ≤ c.toNat
  | .empty, depth, rest, h => h
  | .entry key value fields, depth, rest, h => by
    have hfields := le_toNat_of_mem_writeMembers fields depth rest h
    have hvalue := le_toNat_of_mem_write value depth _ hfields
    exact List.forall_mem_cons.2 ⟨by decide, le_toNat_of_mem_key key hvalue⟩

end

/-- No control character stands in a compact text. -/
theorem le_toNat_of_mem_print (d : Datum) :
    ∀ c ∈ (d.toJson.print .compact).toList, 0x20 ≤ c.toNat := by
  rw [print, String.toList_ofList]
  exact le_toNat_of_mem_write d 0 [] fun _ h => absurd h List.not_mem_nil

/-! ## The text carries the tree -/

/-- **The JSON text of a tree carries the tree.**

Let every mapping in the tree be built by writing to it.  Both texts read back as the plain data of
the tree, in which no object has two members with the same key.  They differ only in white space
outside strings.  And the compact one has no control character of JSON, which are those below
U+0020, so it is a single line. -/
theorem print_carries {d : Datum}
    (h : ∀ m ∈ d.mappings, ∃ writes, m = Mapping.ofList writes) :
    (∀ spacing, PlainData.read (d.toJson.print spacing) = .ok d.plain) ∧
      d.plain.HasDistinctKeys ∧
      (∀ spacing, closeUp .outside (d.toJson.print spacing).toList =
        (d.toJson.print .compact).toList) ∧
      (∀ c ∈ (d.toJson.print .compact).toList, 0x20 ≤ c.toNat) ∧
      '\n' ∉ (d.toJson.print .compact).toList := by
  refine ⟨fun spacing => PlainData.read_print spacing d, hasDistinctKeys_plain d ?_,
    fun spacing => closeUp_print spacing d, le_toNat_of_mem_print d, ?_⟩
  · intro m hm
    obtain ⟨writes, rfl⟩ := h m hm
    exact Mapping.nodup_keys_ofList writes
  · intro hline
    exact absurd (le_toNat_of_mem_print d _ hline) (by decide)

/-- Names and texts with escapes, a name that is written to twice, a NaN, an empty list and a
double. -/
theorem print_carries_escaped :
    PlainData.read "[\n  \x7b\n    \"\\\"\": \"\\n\",\n    \"é\": null\n  \x7d,\n  [],\n  1.5\n]" =
        .ok (.list [.object [("\"", .string "\n"), ("é", .null)], .list [], .decimal "1.5"]) ∧
      closeUp .outside
        "[\n  \x7b\n    \"\\\"\": \"\\n\",\n    \"é\": null\n  \x7d,\n  [],\n  1.5\n]".toList =
          "[\x7b\"\\\"\":\"\\n\",\"é\":null\x7d,[],1.5]".toList := by
  obtain ⟨tree, htree⟩ : ∃ tree, tree = sequence [.mapping (.ofList [("\"", .text ""),
      ("é", .number .overrun), ("\"", .text "\n")]), .sequence [],
        .number (.float ⟨0x3FF8000000000000⟩)] := ⟨_, rfl⟩
  have hbuilt : ∀ m ∈ tree.mappings, ∃ writes, m = Mapping.ofList writes := by
    rw [htree]
    exact fun m hm => ⟨_, List.mem_singleton.1 hm⟩
  have hpretty : tree.toJson.print .pretty =
      "[\n  \x7b\n    \"\\\"\": \"\\n\",\n    \"é\": null\n  \x7d,\n  [],\n  1.5\n]" := by
    rw [htree]
    decide +kernel
  have hcompact : tree.toJson.print .compact =
      "[\x7b\"\\\"\":\"\\n\",\"é\":null\x7d,[],1.5]" := by
    rw [htree]
    decide +kernel
  have hplain : tree.plain =
      .list [.object [("\"", .string "\n"), ("é", .null)], .list [], .decimal "1.5"] := by
    have htoken : "1.5" = String.ofList (Binary64.write ⟨0x3FF8000000000000⟩) := by decide +kernel
    rw [htree, htoken]
    rfl
  obtain ⟨hread, _, hclose, _⟩ := print_carries hbuilt
  rw [← hpretty, ← hcompact, ← hplain]
  exact ⟨hread .pretty, hclose .pretty⟩

end Datum

end BinaryLayout
