import Mathlib.Data.List.Nodup
import Mathlib.Tactic.Common
/-!
# What was put under a key last

Entries under keys, each key once, in the order in which they were last put. `latest n` is the last `n` of them. A store
that drops the oldest of its entries when it has `n` of them holds the latest `n`: `Holds`.
-/

namespace Vento.Lib.Recent

variable {κ β : Type} {n : Nat} {entries held : List (κ × β)}

def latest (n : Nat) (entries : List (κ × β)) : List (κ × β) := entries.drop (entries.length - n)

/-- `held` is the end of `entries`: all of it, or the last `n`. -/
def Holds (n : Nat) (entries held : List (κ × β)) : Prop :=
  ∃ dropped, entries = dropped ++ held ∧ held.length ≤ n ∧ (dropped = [] ∨ held.length = n)

theorem holds_nil (n : Nat) : Holds n ([] : List (κ × β)) [] := ⟨[], rfl, Nat.zero_le n, .inl rfl⟩

theorem latest_eq (h : Holds n entries held) : latest n entries = held := by
  obtain ⟨dropped, rfl, hle, hall | hn⟩ := h
  · subst hall
    rw [latest, List.nil_append, Nat.sub_eq_zero_of_le hle]
    rfl
  · rw [latest, List.length_append, hn, Nat.add_sub_cancel]
    exact List.drop_left

variable [DecidableEq κ]

def put (entries : List (κ × β)) (k : κ) (v : β) : List (κ × β) := entries.filter (fun e => e.1 ≠ k) ++ [(k, v)]

theorem filter_key_of_notMem {k : κ} (h : k ∉ entries.map Prod.fst) : entries.filter (fun e => e.1 ≠ k) = entries := by
  apply List.filter_eq_self.2
  intro e he
  have : e.1 ≠ k := fun hk => h (hk ▸ List.mem_map_of_mem he)
  simpa using this

/-- A key that is not held goes to the end. -/
theorem holds_put (h : Holds n entries held) {k : κ} (v : β) (hk : k ∉ held.map Prod.fst) (hroom : held.length < n) :
    Holds n (put entries k v) (held ++ [(k, v)]) := by
  obtain ⟨dropped, rfl, hle, hall | hn⟩ := h
  · subst hall
    refine ⟨[], ?_, by rw [List.length_append]; exact hroom, .inl rfl⟩
    rw [put, List.nil_append, filter_key_of_notMem hk, List.nil_append]
  · omega

/-- The oldest makes room, and may be what is put. -/
theorem holds_put_full {oldest : κ × β} (h : Holds n entries (oldest :: held)) {k : κ} (v : β) (hk : k ∉ held.map Prod.fst)
    (hfull : held.length + 1 = n) : Holds n (put entries k v) (held ++ [(k, v)]) := by
  obtain ⟨dropped, rfl, -, -⟩ := h
  refine ⟨(dropped ++ [oldest]).filter (fun e => e.1 ≠ k), ?_, ?_, .inr ?_⟩
  · rw [put, ← List.singleton_append, ← List.append_assoc, List.filter_append, filter_key_of_notMem hk, List.append_assoc]
  · rw [List.length_append]
    exact Nat.le_of_eq hfull
  · rw [List.length_append]
    exact hfull

end Vento.Lib.Recent
