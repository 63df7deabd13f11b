import Mathlib.Data.List.Nodup
import Mathlib.Data.List.Perm.Basic
/-!
# Rows in an array

A table keeps its rows at the front of an array, in no order: one is taken out by putting the last in its place.
-/

namespace Vento.Lib

variable {α ι : Type} {rows : List α} {i : Nat}

/-- `rows[i] = rows[--n]`. -/
def swapRemove (rows : List α) (i : Nat) : List α :=
  match rows.getLast? with
  | some last => (rows.set i last).dropLast
  | none => []

/-- What is taken out and what is left are the rows there were. -/
theorem swapRemove_perm (h : i < rows.length) : (rows[i] :: swapRemove rows i).Perm rows := by
  obtain ⟨init, last, rfl⟩ := List.eq_nil_or_concat' rows |>.resolve_left (List.ne_nil_of_length_pos (by omega))
  rw [swapRemove, List.getLast?_concat]
  dsimp only
  rcases Nat.lt_or_ge i init.length with hlt | hge
  · rw [List.set_append_left _ _ hlt, List.dropLast_concat, List.getElem_append_left hlt]
    calc
      (init[i] :: init.set i last).Perm (init[i] :: last :: init.eraseIdx i) := .cons _ (List.set_perm_cons_eraseIdx hlt last)
      _ |>.Perm (last :: init[i] :: init.eraseIdx i) := .swap _ _ _
      _ |>.Perm (last :: init) := .cons _ (List.getElem_cons_eraseIdx_perm hlt)
      _ |>.Perm (init ++ [last]) := (List.perm_append_singleton last init).symm
  · have heq : i = init.length := by
      rw [List.length_append, List.length_singleton] at h
      omega
    subst heq
    simpa using (List.perm_append_singleton last init).symm

/-- The last row leaves the others as they are. -/
theorem swapRemove_last (rows : List α) (row : α) : swapRemove (rows ++ [row]) rows.length = rows := by
  simp [swapRemove]

section Keyed

variable {key : α → ι} (hnodup : (rows.map key).Nodup) (h : i < rows.length)

include hnodup h in
theorem nodup_swapRemove : ((swapRemove rows i).map key).Nodup :=
  (List.nodup_cons.1 (((swapRemove_perm h).map key).nodup_iff.2 hnodup)).2

include hnodup in
/-- Where no two rows have one key, those left are those with another than the one taken out. -/
theorem mem_swapRemove {row : α} : row ∈ swapRemove rows i ↔ row ∈ rows ∧ key row ≠ key rows[i] := by
  have hperm := swapRemove_perm h
  have hcons := (List.nodup_cons.1 ((hperm.map key).nodup_iff.2 hnodup)).1
  rw [← hperm.mem_iff, List.mem_cons]
  constructor
  · intro hmem
    exact ⟨.inr hmem, fun heq => hcons (heq ▸ List.mem_map_of_mem hmem)⟩
  · rintro ⟨rfl | hmem, hne⟩
    · exact absurd rfl hne
    · exact hmem

end Keyed

/-- The row that is looked for by its key is the one that has it. -/
theorem findIdx_key [DecidableEq ι] {key : α → ι} (hnodup : (rows.map key).Nodup) {row : α} (hmem : row ∈ rows) :
    ∃ i, ∃ h : i < rows.length, rows.findIdx? (fun r => key r = key row) = some i ∧ rows[i] = row := by
  cases hfind : rows.findIdx? (fun r => key r = key row) with
  | none => exact absurd (List.findIdx?_eq_none_iff.1 hfind row hmem) (by simp)
  | some i =>
    obtain ⟨h, hkey, -⟩ := List.findIdx?_eq_some_iff_getElem.1 hfind
    exact ⟨i, h, rfl, List.inj_on_of_nodup_map hnodup (List.getElem_mem h) hmem (of_decide_eq_true hkey)⟩

end Vento.Lib
