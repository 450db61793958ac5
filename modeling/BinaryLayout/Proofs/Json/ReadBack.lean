import BinaryLayout.Json.Printer
import BinaryLayout.Proofs.Json.Numerals
import BinaryLayout.Proofs.Json.Strings

/-!
# Printed trees are read back

A reader in front of the text of a tree comes to stand behind its plain data, whatever containers
are open and whatever follows, as long as nothing there can be taken for more of a number
(`PlainData.run_write`).  So a whole text reads back as the plain data of its tree
(`PlainData.read_print`).

There are four groups.

* Plain data.  `Datum.plain` is what a tree says.
* Spacings.  What they put between the parts of a text is white space.
* Parts.  One lemma takes the reader over each part that has no value inside it: numbers, texts,
  and the keys and brackets in front of a first value.
* Trees.  The induction over the tree, with what is left of a list or an object behind one of its
  values (`run_writeItems`, `run_writeMembers`).
-/

namespace BinaryLayout

open Json

/-! ## Plain data -/

namespace Datum

mutual

/-- The plain data of a tree. -/
def plain : Datum → PlainData
  | .number n => n.plain
  | .text s => .string s
  | .sequence items => .list (plainItems items)
  | .mapping fields => .object (plainFields fields)

/-- The plain data of each item. -/
def plainItems : List Datum → List PlainData
  | [] => []
  | item :: items => item.plain :: plainItems items

/-- The plain data of each field, under the same name. -/
def plainFields : Mapping Datum → List (String × PlainData)
  | .empty => []
  | .entry key value fields => (key, value.plain) :: plainFields fields

end

end Datum

/-! ## Spacings -/

namespace Json

theorem isBlank_of_mem_newline {spacing : Spacing} {depth : Nat} :
    ∀ c ∈ spacing.newline depth, isBlank c = true := by
  intro c hc
  cases spacing with
  | compact => exact absurd hc List.not_mem_nil
  | pretty =>
    rcases List.mem_cons.1 hc with rfl | hc
    · rfl
    · rw [List.eq_of_mem_replicate hc]
      rfl

/-- A colon, and white space behind it. -/
theorem exists_colon_eq (spacing : Spacing) :
    ∃ gap, spacing.colon = ':' :: gap ∧ ∀ c ∈ gap, isBlank c = true := by
  cases spacing with
  | compact => exact ⟨[], rfl, fun _ h => absurd h List.not_mem_nil⟩
  | pretty => exact ⟨[' '], rfl, by simp [isBlank]⟩

theorem dropBlank_newline (spacing : Spacing) (depth : Nat) {c : Char} (h : isBlank c = false)
    (text : List Char) : dropBlank (spacing.newline depth ++ c :: text) = c :: text := by
  rw [dropBlank_append isBlank_of_mem_newline, dropBlank_cons h]

theorem endsNumber_newline (spacing : Spacing) (depth : Nat) {c : Char}
    (h : c.isDigit = false ∧ c ≠ '.' ∧ c ≠ 'e' ∧ c ≠ 'E') (rest : List Char) :
    EndsNumber (spacing.newline depth ++ c :: rest) := by
  cases spacing with
  | compact => exact endsNumber_cons c rest h
  | pretty => exact endsNumber_cons '\n' _ (by decide)

end Json

/-! ## Parts -/

namespace Datum

theorem endsNumber_writeItems {spacing : Spacing} {depth : Nat} {rest : List Char}
    (h : EndsNumber rest) (items : List Datum) :
    EndsNumber (writeItems spacing depth (itemsToJson items) rest) := by
  cases items with
  | nil => exact h
  | cons item items => exact endsNumber_cons ',' _ (by decide)

theorem endsNumber_writeMembers {spacing : Spacing} {depth : Nat} {rest : List Char}
    (h : EndsNumber rest) (fields : Mapping Datum) :
    EndsNumber (writeMembers spacing depth (fieldsToJson fields) rest) := by
  cases fields with
  | empty => exact h
  | entry key value fields => exact endsNumber_cons ',' _ (by decide)

/-- No value begins with white space or with the end of a list. -/
theorem exists_write_eq_cons (spacing : Spacing) (depth : Nat) (d : Datum) (rest : List Char) :
    ∃ c text, write spacing depth d.toJson rest = c :: text ∧ isBlank c = false ∧ c ≠ ']' := by
  cases d with
  | number n =>
    rcases n.toJson_cases with ⟨hnull, _⟩ | ⟨numeral, hregular, htoken, _⟩
    · rw [toJson, hnull]
      exact ⟨'n', _, rfl, rfl, by decide⟩
    · obtain ⟨c, tail, hcons, hc⟩ := Numeral.exists_write_eq_cons hregular
      rw [toJson, htoken, write, String.toList_ofList, hcons]
      exact ⟨c, _, rfl, isBlank_of_startsNumber hc, ne_of_startsNumber hc rfl⟩
  | text s => exact ⟨'"', _, rfl, rfl, by decide⟩
  | sequence items =>
    cases items with
    | nil => exact ⟨'[', _, rfl, rfl, by decide⟩
    | cons item items => exact ⟨'[', _, rfl, rfl, by decide⟩
  | mapping fields =>
    cases fields with
    | empty => exact ⟨'\x7b', _, rfl, rfl, by decide⟩
    | entry key value fields => exact ⟨'\x7b', _, rfl, rfl, by decide⟩

end Datum

namespace PlainData

/-- The key of a member.  What may be left in front of the value is white space. -/
theorem readKey_write (spacing : Spacing) (depth : Nat) (key : String) (text : List Char) :
    ∃ gap, (∀ c ∈ gap, isBlank c = true) ∧
      readKey (spacing.newline depth ++ quote key ++ spacing.colon ++ text) =
        .ok (key, gap ++ text) := by
  obtain ⟨gap, hcolon, hgap⟩ := exists_colon_eq spacing
  refine ⟨gap, hgap, ?_⟩
  have hquote : dropBlank (spacing.newline depth ++ quote key ++ spacing.colon ++ text) =
      '"' :: (key.toList.flatMap escape ++ '"' :: (spacing.colon ++ text)) := by
    rw [List.append_assoc, List.append_assoc, dropBlank_append isBlank_of_mem_newline, quote,
      List.append_assoc, List.cons_append, dropBlank_cons rfl]
    simp
  have hcolon : readColon (spacing.colon ++ text) = .ok (gap ++ text) := by
    rw [hcolon, List.cons_append, readColon, dropBlank_cons rfl]
    rfl
  simp only [readKey, hquote, readString_quoted, hcolon, String.ofList_toList]

theorem readScalar_of_startsNumber {c : Char} (h : startsNumber c = true) (text : List Char) :
    readScalar (c :: text) = readNumber (c :: text) := by
  have hne {d : Char} (hd : startsNumber d = false) (rest : List Char) : c :: text ≠ d :: rest :=
    fun heq => ne_of_startsNumber h hd (List.cons.inj heq).1
  unfold readScalar
  split
  · next heq => cases heq
  · next heq => exact absurd heq (hne rfl _)
  · next heq => exact absurd heq (hne rfl _)
  · next heq => exact absurd heq (hne rfl _)
  · next heq => exact absurd heq (hne rfl _)
  · next heq =>
    obtain ⟨rfl, rfl⟩ := List.cons.inj heq
    rw [if_pos h]

theorem run_number (opened : List Frame) (n : Number) {rest : List Char} (h : EndsNumber rest)
    (spacing : Spacing) (depth : Nat) :
    run ⟨.before, opened, write spacing depth n.toJson rest⟩ =
      run ⟨.behind n.plain, opened, rest⟩ := by
  rcases n.toJson_cases with ⟨hnull, hplain⟩ | ⟨numeral, hregular, htoken, hplain⟩
  · rw [hnull, hplain]
    exact run_scalar rfl (by decide) (by decide) rfl
  · obtain ⟨c, tail, hcons, hc⟩ := Numeral.exists_write_eq_cons hregular
    have hread := readNumber_write hregular h
    rw [hcons, List.cons_append] at hread
    rw [htoken, hplain, write, String.toList_ofList, hcons, List.cons_append]
    refine run_scalar (isBlank_of_startsNumber hc) (ne_of_startsNumber hc rfl)
      (ne_of_startsNumber hc rfl) ?_
    rw [readScalar_of_startsNumber hc, hread]

theorem run_text (opened : List Frame) (s : String) (rest : List Char) :
    run ⟨.before, opened, quote s ++ rest⟩ = run ⟨.behind (.string s), opened, rest⟩ := by
  have hread : readScalar ('"' :: (s.toList.flatMap escape ++ '"' :: rest)) =
      .ok (.string s, rest) := by
    simp only [readScalar, readString_quoted, String.ofList_toList]
  rw [quote, List.append_assoc, List.cons_append]
  exact run_scalar rfl (by decide) (by decide) hread

/-- An object up to the value of its first member. -/
theorem run_first_member (opened : List Frame) (spacing : Spacing) (depth : Nat) (key : String)
    (text : List Char) :
    run ⟨.before, opened,
        '\x7b' :: (spacing.newline depth ++ quote key ++ spacing.colon ++ text)⟩ =
      run ⟨.before, .object [] key :: opened, text⟩ := by
  obtain ⟨gap, hgap, hkey⟩ := readKey_write spacing depth key text
  rw [run_object hkey, run_before_blanks hgap]

/-- A comma, up to the value of the next member. -/
theorem run_next_member (value : PlainData) (members : List (String × PlainData)) (last : String)
    (opened : List Frame) (spacing : Spacing) (depth : Nat) (key : String) (text : List Char) :
    run ⟨.behind value, .object members last :: opened,
        ',' :: (spacing.newline depth ++ quote key ++ spacing.colon ++ text)⟩ =
      run ⟨.before, .object (members ++ [(last, value)]) key :: opened, text⟩ := by
  obtain ⟨gap, hgap, hkey⟩ := readKey_write spacing depth key text
  have hnext : (Frame.object members last).next value
      (spacing.newline depth ++ quote key ++ spacing.colon ++ text) =
        .ok (.object (members ++ [(last, value)]) key, gap ++ text) := by
    rw [Frame.next, hkey]
  rw [run_comma hnext, run_before_blanks hgap]

/-- A list up to its first item, which cannot be taken for the end of an empty list. -/
theorem run_first_item (opened : List Frame) (spacing : Spacing) (depth : Nat) (item : Datum)
    (rest : List Char) :
    run ⟨.before, opened,
        '[' :: (spacing.newline depth ++ write spacing depth item.toJson rest)⟩ =
      run ⟨.before, .list [] :: opened, write spacing depth item.toJson rest⟩ := by
  obtain ⟨c, text, hcons, hblank, hc⟩ := item.exists_write_eq_cons spacing depth rest
  have hdrop : dropBlank (spacing.newline depth ++ write spacing depth item.toJson rest) =
      c :: text := by
    rw [dropBlank_append isBlank_of_mem_newline, hcons, dropBlank_cons hblank]
  rw [run_list hdrop hc, run_before_blanks isBlank_of_mem_newline]

/-! ## Trees -/

mutual

/-- The text of a tree is read as its plain data.  What stands around the tree is free: `opened` are
the containers that it stands in, and `rest` begins with what follows it there. -/
theorem run_write (spacing : Spacing) : ∀ (d : Datum) (depth : Nat) (opened : List Frame)
    (rest : List Char), EndsNumber rest →
      run ⟨.before, opened, write spacing depth d.toJson rest⟩ =
        run ⟨.behind d.plain, opened, rest⟩
  | .number n, depth, opened, rest, h => run_number opened n h spacing depth
  | .text s, depth, opened, rest, h => run_text opened s rest
  | .sequence [], depth, opened, rest, h => by
    rw [run_before]
    rfl
  | .sequence (item :: items), depth, opened, rest, h => by
    have hend := endsNumber_newline spacing depth (c := ']') (by decide) rest
    show run ⟨.before, opened, '[' :: (spacing.newline (depth + 1) ++ write spacing (depth + 1)
      item.toJson (writeItems spacing (depth + 1) (Datum.itemsToJson items)
        (spacing.newline depth ++ ']' :: rest)))⟩ = _
    rw [run_first_item, run_write spacing item _ _ _ (Datum.endsNumber_writeItems hend items)]
    exact run_writeItems spacing items (depth + 1) depth opened [] item.plain rest
  | .mapping .empty, depth, opened, rest, h => by
    rw [run_before]
    rfl
  | .mapping (.entry key value fields), depth, opened, rest, h => by
    have hend := endsNumber_newline spacing depth (c := '\x7d') (by decide) rest
    show run ⟨.before, opened, '\x7b' :: (spacing.newline (depth + 1) ++ quote key ++
      spacing.colon ++ write spacing (depth + 1) value.toJson
        (writeMembers spacing (depth + 1) (Datum.fieldsToJson fields)
          (spacing.newline depth ++ '\x7d' :: rest)))⟩ = _
    rw [run_first_member, run_write spacing value _ _ _ (Datum.endsNumber_writeMembers hend fields)]
    exact run_writeMembers spacing fields (depth + 1) depth opened [] key value.plain rest

/-- The rest of a list, behind one of its items. -/
theorem run_writeItems (spacing : Spacing) : ∀ (items : List Datum) (depth outer : Nat)
    (opened : List Frame) (done : List PlainData) (value : PlainData) (rest : List Char),
      run ⟨.behind value, .list done :: opened,
          writeItems spacing depth (Datum.itemsToJson items)
            (spacing.newline outer ++ ']' :: rest)⟩ =
        run ⟨.behind (.list (done ++ value :: Datum.plainItems items)), opened, rest⟩
  | [], depth, outer, opened, done, value, rest =>
    run_closing (dropBlank_newline spacing outer rfl rest)
  | item :: items, depth, outer, opened, done, value, rest => by
    have hend := endsNumber_newline spacing outer (c := ']') (by decide) rest
    show run ⟨.behind value, .list done :: opened, ',' :: (spacing.newline depth ++
      write spacing depth item.toJson (writeItems spacing depth (Datum.itemsToJson items)
        (spacing.newline outer ++ ']' :: rest)))⟩ = _
    have hnext (text : List Char) :
        (Frame.list done).next value text = .ok (.list (done ++ [value]), text) := rfl
    rw [run_comma (hnext _), run_before_blanks isBlank_of_mem_newline,
      run_write spacing item _ _ _ (Datum.endsNumber_writeItems hend items),
      run_writeItems spacing items, List.append_assoc]
    rfl

/-- The rest of an object, behind the value of one of its members. -/
theorem run_writeMembers (spacing : Spacing) : ∀ (fields : Mapping Datum) (depth outer : Nat)
    (opened : List Frame) (done : List (String × PlainData)) (key : String) (value : PlainData)
    (rest : List Char),
      run ⟨.behind value, .object done key :: opened,
          writeMembers spacing depth (Datum.fieldsToJson fields)
            (spacing.newline outer ++ '\x7d' :: rest)⟩ =
        run ⟨.behind (.object (done ++ (key, value) :: Datum.plainFields fields)), opened, rest⟩
  | .empty, depth, outer, opened, done, key, value, rest =>
    run_closing (dropBlank_newline spacing outer rfl rest)
  | .entry next item fields, depth, outer, opened, done, key, value, rest => by
    have hend := endsNumber_newline spacing outer (c := '\x7d') (by decide) rest
    show run ⟨.behind value, .object done key :: opened, ',' :: (spacing.newline depth ++
      quote next ++ spacing.colon ++ write spacing depth item.toJson
        (writeMembers spacing depth (Datum.fieldsToJson fields)
          (spacing.newline outer ++ '\x7d' :: rest)))⟩ = _
    rw [run_next_member,
      run_write spacing item _ _ _ (Datum.endsNumber_writeMembers hend fields),
      run_writeMembers spacing fields, List.append_assoc]
    rfl

end

/-- A strict reader gets back the plain data of a tree from its text. -/
theorem read_print (spacing : Spacing) (d : Datum) :
    read (d.toJson.print spacing) = .ok d.plain := by
  have hend : EndsNumber [] := fun _ h => absurd h (Option.not_mem_none _)
  rw [read, print, String.toList_ofList, run_write spacing d 0 [] [] hend, run, dropBlank,
    List.dropWhile_nil, if_pos rfl]

/-- What is printed for a list of trees reads back as the list of their plain data. -/
theorem read_printAll (spacing : Spacing) (values : List Datum) :
    read (Datum.printAll spacing values) = .ok (.list (Datum.plainItems values)) :=
  read_print spacing (.sequence values)

end PlainData

end BinaryLayout
