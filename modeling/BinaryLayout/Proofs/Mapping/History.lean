import BinaryLayout.Proofs.Mapping.Writes
import Mathlib.Data.Finset.Card

/-!
# A mapping and the history of its writes

Whatever is written to a mapping, and however often, it is a table of the last values, in the order
in which the keys were first written to.

There are three groups.

* The table.  `firstWrite` and `LastWrite` say of a history where a key comes up first and which
  value it is given last, without any mapping.
* Keys.  `mem_keys_ofList`, `pairwise_keys_ofList` and `size_ofList` say which keys a mapping has,
  in which order, and how many.
* Values.  `get?_ofList_eq_some_iff` says what stands under a key, and `toList_ofList_congr` that a
  history leaves no other trace than that.  `ofList_isTable` puts all of it together.
-/

namespace BinaryLayout.Mapping

variable {α : Type}

/-! ## The table -/

/-- The position of the first write to a key, or the number of writes if there is none. -/
def firstWrite (writes : List (String × α)) (key : String) : Nat := (writes.map (·.1)).idxOf key

/-- The last write to a key writes this value. -/
def LastWrite (writes : List (String × α)) (key : String) (value : α) : Prop :=
  ∃ before after, writes = before ++ (key, value) :: after ∧ key ∉ after.map (·.1)

/-! ## Keys -/

/-- The keys are those that are written to. -/
theorem mem_keys_ofList {writes : List (String × α)} {key : String} :
    key ∈ (ofList writes).keys ↔ key ∈ writes.map (·.1) := by
  rw [keys_ofList, List.mem_eraseDups]

/-- A further write does not move a key that was written to before. -/
theorem firstWrite_concat_of_mem {writes : List (String × α)} {key : String}
    (h : key ∈ writes.map (·.1)) (write : String × α) :
    firstWrite (writes ++ [write]) key = firstWrite writes key := by
  rw [firstWrite, List.map_append, List.idxOf_append_of_mem h, firstWrite]

/-- A new key comes behind all writes before. -/
theorem firstWrite_concat_of_notMem {writes : List (String × α)} {key : String}
    (h : key ∉ writes.map (·.1)) (value : α) :
    firstWrite (writes ++ [(key, value)]) key = writes.length := by
  rw [firstWrite, List.map_append, List.idxOf_append_of_notMem h, List.map_singleton,
    List.idxOf_cons_self, Nat.add_zero, List.length_map]

theorem firstWrite_lt_length {writes : List (String × α)} {key : String}
    (h : key ∈ writes.map (·.1)) : firstWrite writes key < writes.length := by
  have hlt := List.idxOf_lt_length_iff.2 h
  rwa [List.length_map] at hlt

/-- The keys stand in the order of their first writes. -/
theorem pairwise_keys_ofList (writes : List (String × α)) :
    (ofList writes).keys.Pairwise fun j k => firstWrite writes j < firstWrite writes k := by
  induction writes using List.reverseRecOn with
  | nil => exact List.Pairwise.nil
  | append_singleton writes last ih =>
    obtain ⟨key, value⟩ := last
    have hkept : (ofList writes).keys.Pairwise fun j k =>
        firstWrite (writes ++ [(key, value)]) j < firstWrite (writes ++ [(key, value)]) k := by
      refine ih.imp_of_mem fun hj hk hlt => ?_
      rw [firstWrite_concat_of_mem (mem_keys_ofList.1 hj),
        firstWrite_concat_of_mem (mem_keys_ofList.1 hk)]
      exact hlt
    rw [ofList_concat, keys_insert]
    split
    · exact hkept
    · next hnew =>
      have hnotMem : key ∉ writes.map (·.1) := mt mem_keys_ofList.2 hnew
      refine List.pairwise_append.2 ⟨hkept, List.pairwise_singleton _ _, fun j hj k hk => ?_⟩
      obtain rfl := List.mem_singleton.1 hk
      have hj := mem_keys_ofList.1 hj
      rw [firstWrite_concat_of_mem hj, firstWrite_concat_of_notMem hnotMem]
      exact firstWrite_lt_length hj

/-- There are as many keys as different ones are written to. -/
theorem size_ofList (writes : List (String × α)) :
    (ofList writes).size = (writes.map (·.1)).toFinset.card := by
  have hkeys : (writes.map (·.1)).toFinset = (ofList writes).keys.toFinset := by
    ext key
    rw [List.mem_toFinset, List.mem_toFinset, mem_keys_ofList]
  rw [hkeys, List.toFinset_card_of_nodup (nodup_keys_ofList writes), size, keys, List.length_map]

/-! ## Values -/

/-- Under a key stands what is written to it last. -/
theorem get?_ofList_eq_some_iff {writes : List (String × α)} {key : String} {value : α} :
    (ofList writes).get? key = some value ↔ LastWrite writes key value := by
  rw [get?_ofList, List.lookup_eq_some_iff]
  constructor
  · rintro ⟨after, before, hwrites, hafter⟩
    refine ⟨before.reverse, after.reverse, ?_, ?_⟩
    · rw [← List.reverse_reverse writes, hwrites, List.reverse_append, List.reverse_cons,
        List.append_assoc, List.singleton_append]
    · rw [List.map_reverse, List.mem_reverse, List.mem_map]
      rintro ⟨write, hmem, rfl⟩
      exact bne_iff_ne.1 (hafter write hmem) rfl
  · rintro ⟨before, after, rfl, hafter⟩
    refine ⟨after.reverse, before.reverse, ?_, fun write hmem => bne_iff_ne.2 ?_⟩
    · rw [List.reverse_append, List.reverse_cons, List.append_assoc, List.singleton_append]
    · rintro rfl
      exact hafter (List.mem_map_of_mem (List.mem_reverse.1 hmem))

/-- Under a key that is not written to stands nothing. -/
theorem get?_ofList_eq_none_iff {writes : List (String × α)} {key : String} :
    (ofList writes).get? key = none ↔ key ∉ writes.map (·.1) := by
  rw [get?_ofList, List.lookup_eq_none_iff, List.mem_map]
  constructor
  · rintro h ⟨write, hmem, rfl⟩
    exact bne_iff_ne.1 (h write (List.mem_reverse.2 hmem)) rfl
  · rintro h write hmem
    exact bne_iff_ne.2 fun heq => h ⟨write, List.mem_reverse.1 hmem, heq.symm⟩

/-- Each entry holds what stands under its key. -/
theorem get?_of_mem_toList {m : Mapping α} (h : m.keys.Nodup) {entry : String × α}
    (hmem : entry ∈ m.toList) : m.get? entry.1 = some entry.2 := by
  rw [toList_eq_filterMap h, List.mem_filterMap] at hmem
  obtain ⟨key, _, hvalue⟩ := hmem
  obtain ⟨value, hget, rfl⟩ := Option.map_eq_some_iff.1 hvalue
  exact hget

/-- Histories with the same keys, first written to in the same order, and with the same last values
leave the same mapping. -/
theorem toList_ofList_congr {writes others : List (String × α)}
    (horder : ∀ j ∈ writes.map (·.1), ∀ k ∈ writes.map (·.1),
      (firstWrite writes j < firstWrite writes k ↔ firstWrite others j < firstWrite others k))
    (hlast : ∀ key value, LastWrite writes key value ↔ LastWrite others key value) :
    (ofList writes).toList = (ofList others).toList := by
  have hget (key : String) : (ofList writes).get? key = (ofList others).get? key := by
    refine Option.ext fun value => ?_
    rw [get?_ofList_eq_some_iff, get?_ofList_eq_some_iff, hlast]
  have hmem (key : String) : key ∈ (ofList writes).keys ↔ key ∈ (ofList others).keys := by
    rw [mem_keys_ofList, mem_keys_ofList]
    refine not_iff_not.1 ?_
    rw [← get?_ofList_eq_none_iff, ← get?_ofList_eq_none_iff, hget]
  have hkeys : (ofList writes).keys = (ofList others).keys := by
    have hperm := (List.perm_ext_iff_of_nodup (nodup_keys_ofList writes)
      (nodup_keys_ofList others)).2 hmem
    have hothers := (pairwise_keys_ofList others).imp_of_mem fun {j k} hj hk hlt =>
      (horder j (mem_keys_ofList.1 ((hmem j).2 hj)) k (mem_keys_ofList.1 ((hmem k).2 hk))).2 hlt
    refine hperm.eq_of_pairwise (fun j k _ _ hjk hkj => ?_) (pairwise_keys_ofList writes) hothers
    omega
  rw [toList_eq_filterMap (nodup_keys_ofList writes),
    toList_eq_filterMap (nodup_keys_ofList others), hkeys]
  exact List.filterMap_congr fun key _ => by rw [hget]

/-- **A mapping is a table of the last values, in the order of the first writes.**

Its keys are distinct, are those that are written to, and stand in the order of their first writes;
under each of them is what is written to it last, and nothing is under any other key; there are as
many as different keys are written to; and each entry pairs a key with what stands under it.
Another history with the same order of first writes and the same last values leaves the same
entries. -/
theorem ofList_isTable (writes : List (String × α)) :
    (ofList writes).keys.Nodup ∧
      (∀ key, key ∈ (ofList writes).keys ↔ key ∈ writes.map (·.1)) ∧
      (ofList writes).keys.Pairwise (fun j k => firstWrite writes j < firstWrite writes k) ∧
      (∀ key value, (ofList writes).get? key = some value ↔ LastWrite writes key value) ∧
      (∀ key, (ofList writes).get? key = none ↔ key ∉ writes.map (·.1)) ∧
      (ofList writes).size = (writes.map (·.1)).toFinset.card ∧
      (ofList writes).toList.map (fun entry => (entry.1, some entry.2)) =
        (ofList writes).keys.map (fun key => (key, (ofList writes).get? key)) ∧
      ∀ others : List (String × α),
        (∀ j ∈ writes.map (·.1), ∀ k ∈ writes.map (·.1),
          (firstWrite writes j < firstWrite writes k ↔ firstWrite others j < firstWrite others k)) →
        (∀ key value, LastWrite writes key value ↔ LastWrite others key value) →
          (ofList writes).toList = (ofList others).toList := by
  refine ⟨nodup_keys_ofList writes, fun _ => mem_keys_ofList, pairwise_keys_ofList writes,
    fun _ _ => get?_ofList_eq_some_iff, fun _ => get?_ofList_eq_none_iff, size_ofList writes, ?_,
    fun _ => toList_ofList_congr⟩
  rw [keys, List.map_map]
  refine List.map_congr_left fun entry hmem => ?_
  rw [Function.comp_apply, get?_of_mem_toList (nodup_keys_ofList writes) hmem]

/-- A value that is replaced behind another key, and one that is replaced at once. -/
theorem ofList_isTable_replaced :
    (∀ key value, LastWrite [("b", 1), ("a", 2), ("b", 3)] key value ↔
        LastWrite [("b", 4), ("b", 3), ("a", 2)] key value) ∧
      (ofList [("b", 1), ("a", 2), ("b", 3)]).toList =
        (ofList [("b", 4), ("b", 3), ("a", 2)]).toList := by
  obtain ⟨_, _, _, _, _, _, _, hcongr⟩ := ofList_isTable [("b", 1), ("a", 2), ("b", 3)]
  have hlast (key : String) (value : Nat) : LastWrite [("b", 1), ("a", 2), ("b", 3)] key value ↔
      LastWrite [("b", 4), ("b", 3), ("a", 2)] key value := by
    rw [← get?_ofList_eq_some_iff, ← get?_ofList_eq_some_iff]
    rfl
  exact ⟨hlast, hcongr _ (by decide) hlast⟩

end BinaryLayout.Mapping
