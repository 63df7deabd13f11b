import Mathlib.Data.List.Basic
import Mathlib.Data.Option.Basic
import Mathlib.Order.Lattice
import Mathlib.Order.OrderDual
/-!
# The least and the greatest of a list

What a loop keeps that takes an element for a better one each time it meets one. `first?` is over any comparison;
for one that is that of a linear order, the element is characterised as a bound of the others.
-/

namespace Vento.Lib

variable {α β : Type}

/-- The element that none is better than, the first of several. -/
def first? (better : α → α → Bool) : List α → Option α
  | [] => none
  | a :: l => some (l.foldl (fun m v => if better v m then v else m) a)

def least? [LT α] [DecidableLT α] (l : List α) : Option α := first? (fun v m => v < m) l

def greatest? [LT α] [DecidableLT α] (l : List α) : Option α := first? (fun v m => m < v) l

theorem first?_map {better : α → α → Bool} {better' : β → β → Bool} (f : α → β)
    (h : ∀ v m, better' (f v) (f m) = better v m) (l : List α) :
    first? better' (l.map f) = (first? better l).map f := by
  cases l with
  | nil => rfl
  | cons a l =>
    have hfold : (l.map f).foldl (fun m v => if better' v m then v else m) (f a) =
        f (l.foldl (fun m v => if better v m then v else m) a) := by
      induction l generalizing a with
      | nil => rfl
      | cons v l ih =>
        rw [List.map_cons, List.foldl_cons, List.foldl_cons, h, ← apply_ite f, ih]
    exact congrArg some hfold

theorem exists_first? {better : α → α → Bool} {l : List α} (h : l ≠ []) : ∃ a, first? better l = some a := by
  cases l with
  | nil => exact absurd rfl h
  | cons a l => exact ⟨_, rfl⟩

section Order

variable {better : α → α → Bool} (htrans : ∀ a b c, better a b = false → better b c = false → better a c = false)
  (hasymm : ∀ a b, better a b = true → better b a = false)

include htrans hasymm

theorem foldl_first (l : List α) (a : α) :
    l.foldl (fun m v => if better v m then v else m) a ∈ a :: l ∧
      ∀ b ∈ a :: l, better b (l.foldl (fun m v => if better v m then v else m) a) = false := by
  have hself : ∀ a, better a a = false := by
    intro a
    by_contra h
    rw [Bool.not_eq_false] at h
    exact absurd (hasymm a a h) (by simp [h])
  induction l generalizing a with
  | nil => simp [hself]
  | cons v l ih =>
    rw [List.foldl_cons]
    split
    · next hv =>
      obtain ⟨hmem, hbest⟩ := ih v
      refine ⟨List.mem_cons_of_mem a hmem, ?_⟩
      rw [List.forall_mem_cons]
      exact ⟨htrans a v _ (hasymm v a hv) (hbest v List.mem_cons_self), hbest⟩
    · next hv =>
      obtain ⟨hmem, hbest⟩ := ih a
      rw [List.forall_mem_cons] at hbest
      refine ⟨?_, ?_⟩
      · rcases List.mem_cons.1 hmem with heq | hmem
        · rw [heq]
          exact List.mem_cons_self
        · exact List.mem_cons_of_mem a (List.mem_cons_of_mem v hmem)
      · rw [List.forall_mem_cons, List.forall_mem_cons]
        exact ⟨hbest.1, htrans v a _ (Bool.eq_false_iff.2 hv) hbest.1, hbest.2⟩

theorem first?_eq_some_iff (hanti : ∀ a b, better a b = false → better b a = false → a = b) {l : List α} {a : α} :
    first? better l = some a ↔ a ∈ l ∧ ∀ b ∈ l, better b a = false := by
  cases l with
  | nil => simp [first?]
  | cons c l =>
    obtain ⟨hmem, hbest⟩ := foldl_first htrans hasymm l c
    rw [first?, Option.some_inj]
    constructor
    · rintro rfl
      exact ⟨hmem, hbest⟩
    · rintro ⟨ha, hall⟩
      exact hanti _ _ (hall _ hmem) (hbest a ha)

end Order

theorem greatest?_cons [LT α] [DecidableLT α] (a : α) (l : List α) :
    greatest? (a :: l) = some (l.foldl (fun m v => if m < v then v else m) a) := by
  simp only [greatest?, first?, decide_eq_true_eq]

section Map

variable [LT α] [DecidableLT α] [LT β] [DecidableLT β] (f : α → β) (h : ∀ a b, f a < f b ↔ a < b) (l : List α)

include h

theorem least?_map : least? (l.map f) = (least? l).map f := first?_map f (fun v m => by simp only [h]) l

theorem greatest?_map : greatest? (l.map f) = (greatest? l).map f := first?_map f (fun v m => by simp only [h]) l

end Map

theorem exists_least? [LT α] [DecidableLT α] {l : List α} (h : l ≠ []) : ∃ a, least? l = some a := exists_first? h

theorem exists_greatest? [LT α] [DecidableLT α] {l : List α} (h : l ≠ []) : ∃ a, greatest? l = some a := exists_first? h

theorem least?_eq_some_iff [LinearOrder α] {l : List α} {a : α} : least? l = some a ↔ a ∈ l ∧ ∀ b ∈ l, a ≤ b := by
  rw [least?, first?_eq_some_iff]
  · simp only [decide_eq_false_iff_not, not_lt]
  · intro a b c
    simp only [decide_eq_false_iff_not, not_lt]
    exact fun hab hbc => hbc.trans hab
  · intro a b
    simp only [decide_eq_true_eq, decide_eq_false_iff_not, not_lt]
    exact le_of_lt
  · intro a b
    simp only [decide_eq_false_iff_not, not_lt]
    exact fun hab hba => le_antisymm hba hab

theorem greatest?_eq_some_iff [LinearOrder α] {l : List α} {a : α} : greatest? l = some a ↔ a ∈ l ∧ ∀ b ∈ l, b ≤ a :=
  least?_eq_some_iff (α := αᵒᵈ)

/-- What is no greater than the others does not matter. -/
theorem greatest?_cons_of_le [LinearOrder α] {a : α} {l : List α} (hne : l ≠ []) (h : ∀ b ∈ l, a ≤ b) :
    greatest? (a :: l) = greatest? l := by
  obtain ⟨g, hg⟩ := exists_greatest? hne
  obtain ⟨hmem, hall⟩ := greatest?_eq_some_iff.1 hg
  rw [hg, greatest?_eq_some_iff, List.forall_mem_cons]
  exact ⟨List.mem_cons_of_mem a hmem, h g hmem, hall⟩

end Vento.Lib
