import Mathlib.Data.List.Nodup
/-!
# Maps in the order of insertion

A list of entries with distinct keys. To put a key that it has replaces the value where it is, and one that it has not goes
to the end.
-/

namespace Vento.Lib

variable {κ β : Type} [BEq κ] [LawfulBEq κ]

def put (k : κ) (v : β) : List (κ × β) → List (κ × β)
  | [] => [(k, v)]
  | e :: es => if e.1 == k then (k, v) :: es else e :: put k v es

variable {es : List (κ × β)} {k k' : κ} (v : β)

theorem put_cons_self {v' : β} : put k v ((k, v') :: es) = (k, v) :: es := by
  rw [put, if_pos (beq_self_eq_true k)]

theorem put_cons_of_ne {e : κ × β} (h : e.1 ≠ k) : put k v (e :: es) = e :: put k v es := by
  rw [put, if_neg (by simpa using h)]

theorem put_of_notMem (h : k ∉ es.map Prod.fst) : put k v es = es ++ [(k, v)] := by
  induction es with
  | nil => rfl
  | cons e es ih =>
    rw [List.map_cons, List.mem_cons, not_or] at h
    rw [put_cons_of_ne v (Ne.symm h.1), ih h.2, List.cons_append]

theorem keys_put_of_mem (h : k ∈ es.map Prod.fst) : (put k v es).map Prod.fst = es.map Prod.fst := by
  induction es with
  | nil => cases h
  | cons e es ih =>
    obtain ⟨k', v'⟩ := e
    by_cases he : k' = k
    · subst he
      rw [put_cons_self, List.map_cons, List.map_cons]
    · rw [List.map_cons, List.mem_cons] at h
      rw [put_cons_of_ne v he, List.map_cons, ih (h.resolve_left (Ne.symm he)), List.map_cons]

theorem nodup_keys_put (h : (es.map Prod.fst).Nodup) : ((put k v es).map Prod.fst).Nodup := by
  by_cases hk : k ∈ es.map Prod.fst
  · rwa [keys_put_of_mem v hk]
  · rw [put_of_notMem v hk, List.map_append]
    exact h.append (List.nodup_singleton k) (by simpa using hk)

theorem lookup_cons_of_ne {e : κ × β} (h : k ≠ e.1) : (e :: es).lookup k = es.lookup k := by
  rw [List.lookup_cons, beq_false_of_ne h]

/-- Entries put one after another, if no two have the same key. -/
theorem foldl_put {γ : Type} (f : κ × γ → β) (fs : List (κ × γ)) (h : (es.map Prod.fst ++ fs.map Prod.fst).Nodup) :
    fs.foldl (fun es e => put e.1 (f e) es) es = es ++ fs.map fun e => (e.1, f e) := by
  induction fs generalizing es with
  | nil => simp
  | cons e fs ih =>
    have hnot : e.1 ∉ es.map Prod.fst := fun hmem => List.disjoint_of_nodup_append h hmem List.mem_cons_self
    rw [List.foldl_cons, put_of_notMem _ hnot, ih (by simpa using h), List.map_cons, List.append_assoc, List.singleton_append]

theorem lookup_of_mem {e : κ × β} (h : (es.map Prod.fst).Nodup) (he : e ∈ es) : es.lookup e.1 = some e.2 := by
  induction es with
  | nil => cases he
  | cons d es ih =>
    rw [List.map_cons, List.nodup_cons] at h
    rcases List.mem_cons.1 he with rfl | he
    · exact List.lookup_cons_self
    · have hne : e.1 ≠ d.1 := by
        intro heq
        exact h.1 (heq ▸ List.mem_map_of_mem he)
      rw [lookup_cons_of_ne hne, ih h.2 he]

structure LinkedMap (κ β : Type) where
  entries : List (κ × β)
  distinct : (entries.map Prod.fst).Nodup
deriving DecidableEq

namespace LinkedMap

def empty : LinkedMap κ β := ⟨[], List.nodup_nil⟩

def put (m : LinkedMap κ β) (k : κ) (v : β) : LinkedMap κ β := ⟨Lib.put k v m.entries, nodup_keys_put v m.distinct⟩

def get? (m : LinkedMap κ β) (k : κ) : Option β := m.entries.lookup k

def keys (m : LinkedMap κ β) : List κ := m.entries.map Prod.fst

def values (m : LinkedMap κ β) : List β := m.entries.map Prod.snd

def remove (m : LinkedMap κ β) (k : κ) : LinkedMap κ β :=
  ⟨m.entries.filter fun e => !e.1 == k, m.distinct.sublist (List.filter_sublist.map Prod.fst)⟩

theorem get?_eq_some {m : LinkedMap κ β} {k : κ} {v : β} : m.get? k = some v ↔ (k, v) ∈ m.entries := by
  constructor
  · intro h
    obtain ⟨l, l', heq, -⟩ := List.lookup_eq_some_iff.1 h
    rw [heq]
    exact List.mem_append_right l List.mem_cons_self
  · intro h
    exact lookup_of_mem m.distinct h

theorem mem_remove {m : LinkedMap κ β} {k : κ} {e : κ × β} : e ∈ (m.remove k).entries ↔ e ∈ m.entries ∧ e.1 ≠ k := by
  rw [remove, List.mem_filter, Bool.not_eq_true', beq_eq_false_iff_ne]

theorem get?_remove_self (m : LinkedMap κ β) (k : κ) : (m.remove k).get? k = none := by
  refine Option.eq_none_iff_forall_ne_some.2 fun v h => ?_
  exact (mem_remove.1 (get?_eq_some.1 h)).2 rfl

theorem entries_put_of_none {m : LinkedMap κ β} {k : κ} (h : m.get? k = none) (v : β) :
    (m.put k v).entries = m.entries ++ [(k, v)] := by
  refine put_of_notMem v fun hk => ?_
  obtain ⟨e, he, rfl⟩ := List.mem_map.1 hk
  rw [get?, lookup_of_mem m.distinct he] at h
  cases h

omit [BEq κ] [LawfulBEq κ] in
@[ext]
theorem ext {m m' : LinkedMap κ β} (h : m.entries = m'.entries) : m = m' := by
  cases m
  cases m'
  cases h
  rfl

/-- The entries of what others are put into. -/
theorem entries_foldl {γ : Type} (f : κ × γ → β) (m : LinkedMap κ β) (fs : List (κ × γ)) :
    (fs.foldl (fun m e => m.put e.1 (f e)) m).entries = fs.foldl (fun es e => Lib.put e.1 (f e) es) m.entries := by
  induction fs generalizing m with
  | nil => rfl
  | cons e fs ih => exact ih (m.put e.1 (f e))

end LinkedMap

end Vento.Lib
