import Mathlib.Data.List.Basic
import Mathlib.Data.List.Pairwise
import Mathlib.Data.List.Perm.Basic
/-!
# Two groups of a list

What a stable sort by one Boolean makes of a list: those that have it and then those that do not, each in the order they
were in. And what is left of a list whose elements of one group are others, in the same places (`fill`).
-/

namespace Vento.Lib

variable {α : Type} (p : α → Bool) {l : List α}

def groups (l : List α) : List α := l.filter p ++ l.filter fun a => !p a

/-- None that has `p` comes after one that does not. -/
def Grouped (l : List α) : Prop := l.Pairwise fun a b => p b = true → p a = true

theorem groups_perm (l : List α) : (groups p l).Perm l := List.filter_append_perm p l

theorem filter_groups (q : α → Bool) (l : List α) : (groups p l).filter q = groups p (l.filter q) := by
  simp only [groups, List.filter_append, List.filter_filter, Bool.and_comm]

variable {p}

/-- What holds along a list does along its groups, where it holds from the one to the other. -/
theorem pairwise_groups {R : α → α → Prop} (h : l.Pairwise R) (hcross : ∀ a b, p a = true → p b = false → R a b) :
    (groups p l).Pairwise R := by
  apply List.pairwise_append.2
  refine ⟨h.filter p, h.filter _, ?_⟩
  intro a ha b hb
  apply hcross a b (List.of_mem_filter ha)
  simpa using List.of_mem_filter hb

theorem grouped_groups : Grouped p (groups p l) := by
  apply List.pairwise_append.2
  refine ⟨List.pairwise_of_forall_mem_list ?_, List.pairwise_of_forall_mem_list ?_, ?_⟩
  · intro a ha b _ _
    exact List.of_mem_filter ha
  · intro a _ b hb h
    simp [h] at hb
  · intro a ha b _ _
    exact List.of_mem_filter ha

theorem Grouped.sublist {l' : List α} (h : Grouped p l) (hs : l'.Sublist l) : Grouped p l' := List.Pairwise.sublist hs h

theorem groups_eq_self (h : Grouped p l) : groups p l = l := by
  induction l with
  | nil => rfl
  | cons a l ih =>
    obtain ⟨ha, hl⟩ := List.pairwise_cons.1 h
    cases hp : p a with
    | true =>
      have hcons : groups p (a :: l) = a :: groups p l := by simp [groups, hp]
      rw [hcons, ih hl]
    | false =>
      have hnone : l.filter p = [] := by
        apply List.filter_eq_nil_iff.2
        intro b hb hpb
        cases hp.symm.trans (ha b hb hpb)
      have hcons : groups p (a :: l) = a :: groups p l := by simp [groups, hp, hnone]
      rw [hcons, ih hl]

variable (p) in
/-- A stable sort that puts those that have `p` first. -/
theorem mergeSort_eq_groups (l : List α) : l.mergeSort (fun a b => p a || !p b) = groups p l := by
  have htrans : ∀ a b c : α, (p a || !p b) = true → (p b || !p c) = true → (p a || !p c) = true := by
    intro a b c
    cases p a <;> cases p b <;> simp
  have htotal : ∀ a b : α, (p a || !p b || (p b || !p a)) = true := by
    intro a b
    cases p a <;> cases p b <;> rfl
  -- Those that compare alike are a sorted part of the list, which a stable sort leaves as it is.
  have hkept : ∀ q : α → Bool, (∀ a b, q a = true → q b = true → (p a || !p b) = true) →
      (l.mergeSort fun a b => p a || !p b).filter q = l.filter q := by
    intro q hq
    have hsub : (l.filter q).Sublist (l.mergeSort fun a b => p a || !p b) := by
      refine List.sublist_mergeSort htrans htotal ?_ List.filter_sublist
      apply List.pairwise_of_forall_mem_list
      intro a ha b hb
      exact hq a b (List.of_mem_filter ha) (List.of_mem_filter hb)
    have hsub : (l.filter q).Sublist ((l.mergeSort fun a b => p a || !p b).filter q) := by
      simpa using hsub.filter q
    exact (hsub.eq_of_length ((List.mergeSort_perm l _).filter q).length_eq.symm).symm
  have hgrouped : Grouped p (l.mergeSort fun a b => p a || !p b) := by
    apply List.Pairwise.imp _ (List.pairwise_mergeSort htrans htotal l)
    intro a b h hb
    simpa [hb] using h
  rw [← groups_eq_self hgrouped, groups, hkept p (by simp +contextual), hkept _ (by simp +contextual), groups]

/-! ## Filling places -/

section Fill

variable (q : α → Bool)

/-- The list with `vs` one after another in the places of those that have `q`. -/
def fill : List α → List α → List α
  | a :: l, v :: vs => if q a then v :: fill l vs else a :: fill l (v :: vs)
  | l, _ => l

variable {q} {vs : List α}

theorem fill_cons_neg {a : α} (ha : q a = false) : fill q (a :: l) vs = a :: fill q l vs := by
  cases vs with
  | nil => cases l <;> rfl
  | cons v vs => simp [fill, ha]

theorem fill_cons_pos {a v : α} (ha : q a = true) : fill q (a :: l) (v :: vs) = v :: fill q l vs := by
  simp [fill, ha]

/-- Where those that have `q` and those that take their places are of one group, the groups stay as they are. -/
theorem map_fill {b : Bool} (hl : ∀ a ∈ l, q a = true → p a = b) (hvs : ∀ v ∈ vs, p v = b) :
    (fill q l vs).map p = l.map p := by
  induction l generalizing vs with
  | nil => cases vs <;> rfl
  | cons a l ih =>
    obtain ⟨ha, hl⟩ := List.forall_mem_cons.1 hl
    cases hq : q a with
    | false => rw [fill_cons_neg hq, List.map_cons, List.map_cons, ih hl hvs]
    | true =>
      cases vs with
      | nil => rfl
      | cons v vs =>
        obtain ⟨hv, hvs⟩ := List.forall_mem_cons.1 hvs
        rw [fill_cons_pos hq, List.map_cons, List.map_cons, ih hl hvs, hv, ha hq]

theorem grouped_fill {b : Bool} (h : Grouped p l) (hl : ∀ a ∈ l, q a = true → p a = b) (hvs : ∀ v ∈ vs, p v = b) :
    Grouped p (fill q l vs) := by
  have hmap : ((fill q l vs).map p).Pairwise fun a b => b = true → a = true := by
    rw [map_fill hl hvs]
    exact List.pairwise_map.2 h
  exact List.pairwise_map.1 hmap

variable (hvs : ∀ v ∈ vs, q v = true) (hlen : (l.filter q).length = vs.length)

include hvs hlen

theorem filter_fill : (fill q l vs).filter q = vs := by
  induction l generalizing vs with
  | nil =>
    cases vs with
    | nil => rfl
    | cons v vs => cases hlen
  | cons a l ih =>
    cases ha : q a with
    | false =>
      rw [fill_cons_neg ha, List.filter_cons_of_neg (by simp [ha])]
      rw [List.filter_cons_of_neg (by simp [ha])] at hlen
      exact ih hvs hlen
    | true =>
      rw [List.filter_cons_of_pos ha] at hlen
      cases vs with
      | nil => cases hlen
      | cons v vs =>
        obtain ⟨hv, hvs⟩ := List.forall_mem_cons.1 hvs
        rw [fill_cons_pos ha, List.filter_cons_of_pos hv, ih hvs (Nat.succ.inj hlen)]

theorem filter_not_fill : (fill q l vs).filter (fun a => !q a) = l.filter fun a => !q a := by
  induction l generalizing vs with
  | nil => cases vs <;> rfl
  | cons a l ih =>
    cases ha : q a with
    | false =>
      rw [List.filter_cons_of_neg (by simp [ha])] at hlen
      rw [fill_cons_neg ha, List.filter_cons_of_pos (by simp [ha]), List.filter_cons_of_pos (by simp [ha]), ih hvs hlen]
    | true =>
      rw [List.filter_cons_of_pos ha] at hlen
      cases vs with
      | nil => cases hlen
      | cons v vs =>
        obtain ⟨hv, hvs⟩ := List.forall_mem_cons.1 hvs
        rw [fill_cons_pos ha, List.filter_cons_of_neg (by simp [hv]), List.filter_cons_of_neg (by simp [ha]),
          ih hvs (Nat.succ.inj hlen)]

/-- Those that have `q` are in the places of those that had it, and the others where they were. -/
theorem forall₂_fill : List.Forall₂ (fun a b => if q a then q b = true else b = a) l (fill q l vs) := by
  induction l generalizing vs with
  | nil => cases vs <;> exact .nil
  | cons a l ih =>
    cases ha : q a with
    | false =>
      rw [List.filter_cons_of_neg (by simp [ha])] at hlen
      rw [fill_cons_neg ha]
      exact .cons (by simp [ha]) (ih hvs hlen)
    | true =>
      rw [List.filter_cons_of_pos ha] at hlen
      cases vs with
      | nil => cases hlen
      | cons v vs =>
        obtain ⟨hv, hvs⟩ := List.forall_mem_cons.1 hvs
        rw [fill_cons_pos ha]
        exact .cons (by simp [ha, hv]) (ih hvs (Nat.succ.inj hlen))

theorem fill_perm (hperm : vs.Perm (l.filter q)) : (fill q l vs).Perm l := by
  have h := List.filter_append_perm q (fill q l vs)
  rw [filter_fill hvs hlen, filter_not_fill hvs hlen] at h
  exact h.symm.trans ((hperm.append_right _).trans (List.filter_append_perm q l))

end Fill

end Vento.Lib
