import Mathlib.Data.List.AList
/-!
# What a map holds

A map from ids to values, read as the values it holds under any id: which they are after one
more is put in under an id, and after an id is taken out.
-/

namespace Vento.Lib

variable {ι κ : Type} [DecidableEq ι] {m : AList fun _ : ι => κ} {id : ι} {k : κ}

/-- The values of a map, one for each id. -/
def values (m : AList fun _ : ι => κ) : List κ := m.entries.map (·.2)

theorem mem_values : k ∈ values m ↔ ∃ id, m.lookup id = some k := by
  simp only [values, List.mem_map]
  constructor
  · rintro ⟨⟨id, x⟩, hmem, rfl⟩
    exact ⟨id, AList.mem_lookup_iff.2 hmem⟩
  · rintro ⟨id, h⟩
    exact ⟨⟨id, k⟩, AList.mem_lookup_iff.1 h, rfl⟩

/-- Another id than `id` holds `k`. -/
theorem exists_other_iff :
    (∃ e ∈ m.entries, e.1 ≠ id ∧ e.2 = k) ↔ ∃ i, i ≠ id ∧ m.lookup i = some k := by
  constructor
  · rintro ⟨⟨i, x⟩, hmem, hi, rfl⟩
    exact ⟨i, hi, AList.mem_lookup_iff.2 hmem⟩
  · rintro ⟨i, hi, h⟩
    exact ⟨⟨i, k⟩, AList.mem_lookup_iff.1 h, hi, rfl⟩

theorem exists_lookup_insert (m : AList fun _ : ι => κ) (id : ι) (v k : κ) :
    (∃ i, (m.insert id v).lookup i = some k) ↔ k = v ∨ ∃ i, i ≠ id ∧ m.lookup i = some k := by
  constructor
  · rintro ⟨i, h⟩
    by_cases hi : i = id
    · subst hi
      rw [AList.lookup_insert] at h
      exact Or.inl (Option.some.inj h).symm
    · rw [AList.lookup_insert_ne hi] at h
      exact Or.inr ⟨i, hi, h⟩
  · rintro (rfl | ⟨i, hi, h⟩)
    · exact ⟨id, AList.lookup_insert m⟩
    · refine ⟨i, ?_⟩
      rw [AList.lookup_insert_ne hi]
      exact h

theorem exists_lookup_erase (m : AList fun _ : ι => κ) (id : ι) (k : κ) :
    (∃ i, (m.erase id).lookup i = some k) ↔ ∃ i, i ≠ id ∧ m.lookup i = some k := by
  constructor
  · rintro ⟨i, h⟩
    by_cases hi : i = id
    · subst hi
      rw [AList.lookup_erase] at h
      cases h
    · rw [AList.lookup_erase_ne hi] at h
      exact ⟨i, hi, h⟩
  · rintro ⟨i, hi, h⟩
    refine ⟨i, ?_⟩
    rw [AList.lookup_erase_ne hi]
    exact h

theorem mem_values_insert {v : κ} : k ∈ values (m.insert id v) ↔ k = v ∨ ∃ i, i ≠ id ∧ m.lookup i = some k := by
  rw [mem_values]
  exact exists_lookup_insert m id v k

theorem mem_values_erase : k ∈ values (m.erase id) ↔ ∃ i, i ≠ id ∧ m.lookup i = some k := by
  rw [mem_values]
  exact exists_lookup_erase m id k

omit [DecidableEq ι] in
@[simp] theorem values_empty : values (∅ : AList fun _ : ι => κ) = [] := rfl

/-- A value that is held is still held once `id` is taken out, unless it was `id`'s. -/
theorem mem_values_erase_of_ne {v : κ} (hv : m.lookup id = some v) (hk : k ∈ values m) (hne : k ≠ v) :
    k ∈ values (m.erase id) := by
  obtain ⟨i, hi⟩ := mem_values.1 hk
  refine mem_values_erase.2 ⟨i, ?_, hi⟩
  rintro rfl
  exact hne (Option.some.inj (hi.symm.trans hv))

theorem mem_values_of_erase (hk : k ∈ values (m.erase id)) : k ∈ values m := by
  obtain ⟨i, -, hi⟩ := mem_values_erase.1 hk
  exact mem_values.2 ⟨i, hi⟩

end Vento.Lib
