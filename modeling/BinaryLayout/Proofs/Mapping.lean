import BinaryLayout.Mapping

/-!
# What writing to a mapping changes

The names after one write, and a sum over the values of a mapping that leaves some names out.
`Mapping.sumExcept_insert` says what a write adds to such a sum: what stood under the name is gone.
-/

namespace BinaryLayout.Mapping

variable {α : Type}

@[simp] theorem keys_empty : (Mapping.empty : Mapping α).keys = [] := rfl

@[simp] theorem keys_entry (key : String) (value : α) (rest : Mapping α) :
    (Mapping.entry key value rest).keys = key :: rest.keys := rfl

theorem mem_keys_insert {key name : String} {value : α} {m : Mapping α} :
    name ∈ (m.insert key value).keys ↔ name = key ∨ name ∈ m.keys := by
  induction m with
  | empty => simp [insert]
  | entry k v rest ih =>
    by_cases h : k = key
    · subst h
      simp [insert]
    · simp only [insert, h, if_false, keys_entry, List.mem_cons, ih]
      exact or_left_comm

/-- A write keeps names from coming twice. -/
theorem nodup_keys_insert (key : String) (value : α) {m : Mapping α} (h : m.keys.Nodup) :
    (m.insert key value).keys.Nodup := by
  induction m with
  | empty => simp [insert]
  | entry k v rest ih =>
    rw [keys_entry, List.nodup_cons] at h
    by_cases hk : k = key
    · subst hk
      simpa [insert] using h
    · rw [insert, if_neg hk, keys_entry, List.nodup_cons]
      refine ⟨?_, ih h.2⟩
      intro hmem
      rcases mem_keys_insert.1 hmem with he | hm
      · exact hk he
      · exact h.1 hm

/-- The sum of `f` over the values whose names are not among those to skip. -/
def sumExcept (f : α → Nat) (skip : List String) : Mapping α → Nat
  | .empty => 0
  | .entry key value rest => (if key ∈ skip then 0 else f value) + rest.sumExcept f skip

/-- To skip a name that does not occur changes nothing. -/
theorem sumExcept_cons_of_notMem (f : α → Nat) {key : String} (skip : List String) {m : Mapping α}
    (h : key ∉ m.keys) : m.sumExcept f (key :: skip) = m.sumExcept f skip := by
  induction m with
  | empty => rfl
  | entry k v rest ih =>
    rw [keys_entry, List.mem_cons, not_or] at h
    have hk : k ≠ key := fun he => h.1 he.symm
    simp [sumExcept, hk, ih h.2]

/-- A write takes what stood under its name out of a sum and puts in what it writes. -/
theorem sumExcept_insert (f : α → Nat) (key : String) (value : α) (skip : List String)
    {m : Mapping α} (h : m.keys.Nodup) :
    (m.insert key value).sumExcept f skip =
      m.sumExcept f (key :: skip) + if key ∈ skip then 0 else f value := by
  induction m with
  | empty => simp [insert, sumExcept]
  | entry k v rest ih =>
    rw [keys_entry, List.nodup_cons] at h
    by_cases hk : k = key
    · subst hk
      rw [insert, if_pos rfl]
      simp only [sumExcept, List.mem_cons, true_or, if_true,
        sumExcept_cons_of_notMem f skip h.1]
      omega
    · rw [insert, if_neg hk]
      simp only [sumExcept, ih h.2, List.mem_cons, hk, false_or]
      omega

end BinaryLayout.Mapping
