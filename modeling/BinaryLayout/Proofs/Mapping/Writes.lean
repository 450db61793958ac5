import BinaryLayout.Proofs.Mapping
import Mathlib.Data.List.Basic
import Mathlib.Data.List.Induction

/-!
# What a row of writes leaves

A mapping that is written to again and again is a table in which the last write to a name counts,
and in which names stand in the order of their first write.

There are three groups.

* Entries.  `Mapping.ofEntries` takes a list of entries as it is, and `Mapping.map` changes the
  values where they stand.
* One write.  `keys_insert` and `get?_insert` say what it changes, and `toList_eq_filterMap` that
  names and values together are all there is to a mapping whose names are distinct.
* A row of writes.  `Mapping.settled` is the table said outright, and `ofEntries_settled` says that
  writing comes to it.
-/

namespace BinaryLayout.Mapping

variable {α β : Type}

/-! ## Entries -/

/-- The mapping with these entries in this order. -/
def ofEntries : List (String × α) → Mapping α
  | [] => .empty
  | (key, value) :: entries => .entry key value (ofEntries entries)

/-- The same names with other values. -/
def map (f : α → β) : Mapping α → Mapping β
  | .empty => .empty
  | .entry key value rest => .entry key (f value) (rest.map f)

@[simp] theorem ofEntries_toList (m : Mapping α) : ofEntries m.toList = m := by
  induction m with
  | empty => rfl
  | entry key value rest ih => rw [toList, ofEntries, ih]

theorem map_insert (f : α → β) (key : String) (value : α) (m : Mapping α) :
    (m.insert key value).map f = (m.map f).insert key (f value) := by
  induction m with
  | empty => rfl
  | entry k v rest ih =>
    by_cases h : k = key
    · rw [insert, if_pos h, map, map, insert, if_pos h]
    · rw [insert, if_neg h, map, map, insert, if_neg h, ih]

/-! ## One write -/

theorem get?_entry (k : String) (v : α) (rest : Mapping α) (name : String) :
    (Mapping.entry k v rest).get? name = if name = k then some v else rest.get? name := by
  rw [get?, toList, List.lookup_cons]
  by_cases h : name = k
  · simp [h]
  · have hne : (name == k) = false := by simpa using h
    rw [hne, if_neg h, get?]

/-- A name stands where it was first written to. -/
theorem keys_insert (key : String) (value : α) (m : Mapping α) :
    (m.insert key value).keys = if key ∈ m.keys then m.keys else m.keys ++ [key] := by
  induction m with
  | empty => rfl
  | entry k v rest ih =>
    by_cases h : k = key
    · subst h
      simp [insert]
    · have hne : key ≠ k := fun he => h he.symm
      rw [insert, if_neg h, keys_entry, keys_entry, ih]
      simp only [List.mem_cons, hne, false_or]
      split
      · rfl
      · rfl

theorem get?_insert (key : String) (value : α) (m : Mapping α) (name : String) :
    (m.insert key value).get? name = if name = key then some value else m.get? name := by
  induction m with
  | empty => exact get?_entry key value .empty name
  | entry k v rest ih =>
    by_cases h : k = key
    · subst h
      rw [insert, if_pos rfl, get?_entry, get?_entry]
      split
      · rfl
      · rfl
    · rw [insert, if_neg h, get?_entry, get?_entry, ih]
      by_cases hk : name = k
      · subst hk
        rw [if_pos rfl, if_pos rfl, if_neg h]
      · rw [if_neg hk, if_neg hk]

/-- Where names are distinct, the names in order and the value under each of them are the
entries. -/
theorem toList_eq_filterMap {m : Mapping α} (h : m.keys.Nodup) :
    m.toList = m.keys.filterMap fun key => (m.get? key).map (key, ·) := by
  induction m with
  | empty => rfl
  | entry k v rest ih =>
    rw [keys_entry, List.nodup_cons] at h
    have hrest : rest.keys.filterMap (fun key => ((Mapping.entry k v rest).get? key).map (key, ·)) =
        rest.keys.filterMap fun key => (rest.get? key).map (key, ·) := by
      apply List.filterMap_congr
      intro key hkey
      have hne : key ≠ k := by
        rintro rfl
        exact h.1 hkey
      rw [get?_entry, if_neg hne]
    rw [keys_entry, List.filterMap_cons, hrest, ← ih h.2, get?_entry, if_pos rfl]
    rfl

/-! ## A row of writes -/

/-- What a row of writes leaves: the names in the order in which they first come, each with what is
written to it last. -/
def settled (writes : List (String × α)) : List (String × α) :=
  (writes.map (·.1)).eraseDups.filterMap fun key => (writes.reverse.lookup key).map (key, ·)

theorem ofList_concat (writes : List (String × α)) (key : String) (value : α) :
    ofList (writes ++ [(key, value)]) = (ofList writes).insert key value := by
  simp [ofList]

/-- The last one of some texts is a duplicate or comes last. -/
theorem eraseDups_concat (texts : List String) (text : String) :
    (texts ++ [text]).eraseDups =
      if text ∈ texts.eraseDups then texts.eraseDups else texts.eraseDups ++ [text] := by
  rw [List.eraseDups_append]
  by_cases h : text ∈ texts
  · rw [if_pos (List.mem_eraseDups.2 h)]
    simp [List.removeAll, h]
  · rw [if_neg (mt List.mem_eraseDups.1 h)]
    simp [List.removeAll, h, List.eraseDups_cons]

theorem keys_ofList (writes : List (String × α)) :
    (ofList writes).keys = (writes.map (·.1)).eraseDups := by
  induction writes using List.reverseRecOn with
  | nil => rfl
  | append_singleton writes last ih =>
    obtain ⟨key, value⟩ := last
    rw [ofList_concat, keys_insert, ih, List.map_append, List.map_singleton, eraseDups_concat]

theorem get?_ofList (writes : List (String × α)) (name : String) :
    (ofList writes).get? name = writes.reverse.lookup name := by
  induction writes using List.reverseRecOn with
  | nil => rfl
  | append_singleton writes last ih =>
    obtain ⟨key, value⟩ := last
    rw [ofList_concat, get?_insert, ih, List.reverse_append, List.reverse_singleton,
      List.singleton_append, List.lookup_cons]
    by_cases h : name = key
    · simp [h]
    · have hne : (name == key) = false := by simpa using h
      rw [if_neg h, hne]

theorem nodup_keys_ofList (writes : List (String × α)) : (ofList writes).keys.Nodup := by
  induction writes using List.reverseRecOn with
  | nil => exact List.nodup_nil
  | append_singleton writes last ih =>
    rw [ofList_concat]
    exact nodup_keys_insert _ _ ih

/-- A mapping that is written to holds what the row of writes leaves. -/
theorem toList_ofList (writes : List (String × α)) : (ofList writes).toList = settled writes := by
  rw [toList_eq_filterMap (nodup_keys_ofList writes), keys_ofList]
  apply List.filterMap_congr
  intro key _
  rw [get?_ofList]

theorem ofEntries_settled (writes : List (String × α)) :
    ofEntries (settled writes) = ofList writes := by
  rw [← toList_ofList, ofEntries_toList]

theorem map_ofList (f : α → β) (writes : List (String × α)) :
    (ofList writes).map f = ofList (writes.map fun write => (write.1, f write.2)) := by
  induction writes using List.reverseRecOn with
  | nil => rfl
  | append_singleton writes last ih =>
    obtain ⟨key, value⟩ := last
    rw [ofList_concat, map_insert, ih, List.map_append, List.map_singleton, ofList_concat]

end BinaryLayout.Mapping
