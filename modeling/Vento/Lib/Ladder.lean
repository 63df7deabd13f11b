import Mathlib.Algebra.Order.Field.Basic
import Mathlib.Algebra.Order.Ring.Abs
import Mathlib.Data.List.Induction
import Mathlib.Tactic.Linarith
/-!
# Ladders

Ascending lists of rungs: a list thinned so that each rung is more than a tolerance
above the last, the rung that is nearest to a value, and the last of a list of stops
that a value is caught by.
-/

namespace Vento.Lib

section Clamp

variable {α : Type} [LinearOrder α]

def clamp (v lo hi : α) : α := if v < lo then lo else if hi < v then hi else v

theorem clamp_of_mem {v lo hi : α} (hlo : lo ≤ v) (hhi : v ≤ hi) : clamp v lo hi = v := by
  rw [clamp, if_neg (not_lt.2 hlo), if_neg (not_lt.2 hhi)]

theorem clamp_of_lt {v lo hi : α} (h : v < lo) : clamp v lo hi = lo := if_pos h

theorem clamp_of_gt {v lo hi : α} (hlo : lo ≤ v) (hhi : hi < v) : clamp v lo hi = hi := by
  rw [clamp, if_neg (not_lt.2 hlo), if_pos hhi]

theorem clamp_mem {lo hi : α} (v : α) (h : lo ≤ hi) : lo ≤ clamp v lo hi ∧ clamp v lo hi ≤ hi := by
  unfold clamp
  split
  · exact ⟨le_rfl, h⟩
  · rename_i hlo
    split
    · exact ⟨h, le_rfl⟩
    · rename_i hhi
      exact ⟨not_lt.1 hlo, not_lt.1 hhi⟩

theorem clamp_mono {v w lo hi : α} (h : lo ≤ hi) (hvw : v ≤ w) : clamp v lo hi ≤ clamp w lo hi := by
  have hmem := clamp_mem w h
  by_cases hlo : v < lo
  · rw [clamp_of_lt hlo]
    exact hmem.1
  · by_cases hhi : hi < w
    · rw [clamp_of_gt (not_lt.1 (fun hw => hlo (hvw.trans_lt hw))) hhi]
      exact (clamp_mem v h).2
    · rw [clamp_of_mem (not_lt.1 hlo) (hvw.trans (not_lt.1 hhi)),
        clamp_of_mem ((not_lt.1 hlo).trans hvw) (not_lt.1 hhi)]
      exact hvw

/-- Where a value is clamped to, whichever way the limits lie. -/
theorem clamp_cases (v lo hi : α) :
    (v < lo ∧ clamp v lo hi = lo) ∨ (hi < v ∧ clamp v lo hi = hi) ∨ clamp v lo hi = v := by
  unfold clamp
  split
  · exact .inl ⟨‹_›, rfl⟩
  · split
    · exact .inr (.inl ⟨‹_›, rfl⟩)
    · exact .inr (.inr rfl)

theorem clamp_eq_lo_iff {v lo hi : α} (h : lo < hi) : clamp v lo hi = lo ↔ v ≤ lo := by
  unfold clamp
  split
  · rename_i hv
    exact iff_of_true rfl hv.le
  · rename_i hv
    split
    · rename_i hhi
      exact iff_of_false h.ne' (not_le.2 (h.trans hhi))
    · exact ⟨fun heq => heq.le, fun hle => le_antisymm hle (not_lt.1 hv)⟩

theorem clamp_eq_hi_iff {v lo hi : α} (h : lo < hi) : clamp v lo hi = hi ↔ hi ≤ v := by
  unfold clamp
  split
  · rename_i hv
    exact iff_of_false h.ne (not_le.2 (hv.trans h))
  · split
    · rename_i hhi
      exact iff_of_true rfl hhi.le
    · rename_i hhi
      exact ⟨fun heq => heq.ge, fun hle => le_antisymm (not_lt.1 hhi) hle⟩

theorem clamp_eq_mid_iff {v x lo hi : α} (hlo : lo < x) (hhi : x < hi) : clamp v lo hi = x ↔ v = x := by
  constructor
  · intro h
    rcases clamp_cases v lo hi with ⟨-, hc⟩ | ⟨-, hc⟩ | hc
    · exact absurd (hc.symm.trans h) hlo.ne
    · exact absurd (hc.symm.trans h) hhi.ne'
    · exact hc.symm.trans h
  · rintro rfl
    exact clamp_of_mem hlo.le hhi.le

end Clamp

/-! ## Stops -/

/-- The last stop that catches a value. -/
def lastStop {α : Type} (p : α → Bool) (stops : List α) : Option α := (stops.filter p).getLast?

theorem lastStop_append_singleton {α : Type} (p : α → Bool) (stops : List α) (c : α) :
    lastStop p (stops ++ [c]) = if p c then some c else lastStop p stops := by
  unfold lastStop
  rw [List.filter_append]
  by_cases hc : p c = true
  · rw [List.filter_cons_of_pos hc, List.filter_nil, if_pos hc, List.getLast?_append, List.getLast?_singleton]
    rfl
  · rw [List.filter_cons_of_neg hc, List.filter_nil, if_neg hc, List.append_nil]

/-- Snapping to each stop in turn is snapping to the last that catches the value. -/
theorem foldl_stops {α β : Type} (p : α → Bool) (f : α → β) (stops : List α) (q : β) :
    stops.foldl (fun q c => if p c then f c else q) q = ((lastStop p stops).map f).getD q := by
  induction stops using List.reverseRecOn with
  | nil => rfl
  | append_singleton stops c ih =>
    rw [List.foldl_append, List.foldl_cons, List.foldl_nil, lastStop_append_singleton, ih]
    split <;> rfl

theorem lastStop_mem {α : Type} {p : α → Bool} {stops : List α} {c : α} (h : lastStop p stops = some c) :
    c ∈ stops ∧ p c = true :=
  List.mem_filter.1 (List.mem_of_getLast? h)

section Rungs

variable {α : Type} [Field α] [LinearOrder α]

/-! ## Thinning -/

/-- What is left of a list above a rung. -/
def thinFrom (tolerance rung : α) : List α → List α
  | [] => []
  | x :: xs => if tolerance < x - rung then x :: thinFrom tolerance x xs else thinFrom tolerance rung xs

/-- Each rung more than the tolerance above the last. -/
def thin (tolerance : α) : List α → List α
  | [] => []
  | x :: xs => x :: thinFrom tolerance x xs

theorem thinFrom_subset (tolerance rung : α) (l : List α) : ∀ x ∈ thinFrom tolerance rung l, x ∈ l := by
  induction l generalizing rung with
  | nil => exact fun x hx => hx
  | cons y l ih =>
    intro x hx
    rw [thinFrom] at hx
    split at hx
    · rcases List.mem_cons.1 hx with rfl | hx
      · exact List.mem_cons_self
      · exact List.mem_cons_of_mem _ (ih y x hx)
    · exact List.mem_cons_of_mem _ (ih rung x hx)

theorem thin_subset (tolerance : α) (l : List α) : ∀ x ∈ thin tolerance l, x ∈ l := by
  cases l with
  | nil => exact fun x hx => hx
  | cons y l =>
    intro x hx
    rcases List.mem_cons.1 hx with rfl | hx
    · exact List.mem_cons_self
    · exact List.mem_cons_of_mem _ (thinFrom_subset tolerance y l x hx)

/-! ## The nearest rung -/

/-- The nearest rung to `s` of those from the `i`-th on and the best before, with its error. -/
def nearestFrom (s : α) : Nat → Option (Nat × α) → List α → Option (Nat × α)
  | _, best, [] => best
  | i, none, x :: xs => nearestFrom s (i + 1) (some (i, |s - x|)) xs
  | i, some (j, bestErr), x :: xs =>
    nearestFrom s (i + 1) (if |s - x| < bestErr then some (i, |s - x|) else some (j, bestErr)) xs

/-- The first of the nearest rungs, and 0 where there is none. -/
def nearest (s : α) (rungs : List α) : Nat := ((nearestFrom s 0 none rungs).map Prod.fst).getD 0

theorem nearestFrom_lt {s : α} {i : Nat} {best : Option (Nat × α)} {rungs : List α} (hbest : ∀ b ∈ best, b.1 < i) :
    ∀ b ∈ nearestFrom s i best rungs, b.1 < i + rungs.length := by
  induction rungs generalizing i best with
  | nil => exact hbest
  | cons x rungs ih =>
    have hlen : i + (x :: rungs).length = i + 1 + rungs.length := by rw [List.length_cons]; omega
    rw [hlen]
    cases best with
    | none =>
      refine ih fun b hb => ?_
      cases hb
      exact Nat.lt_succ_self i
    | some b =>
      refine ih fun b' hb' => ?_
      split at hb'
      · cases hb'
        exact Nat.lt_succ_self i
      · cases hb'
        exact Nat.lt_succ_of_lt (hbest _ rfl)

theorem nearest_lt {s : α} {rungs : List α} (h : 0 < nearest s rungs) : nearest s rungs < rungs.length := by
  have hlt : ∀ b ∈ nearestFrom s 0 none rungs, b.1 < 0 + rungs.length := nearestFrom_lt nofun
  unfold nearest at h ⊢
  cases hfrom : nearestFrom s 0 none rungs with
  | none =>
    rw [hfrom] at h
    exact absurd h (Nat.lt_irrefl 0)
  | some b =>
    have hb := hlt b hfrom
    rwa [Nat.zero_add] at hb

/-! ## Ascending rungs -/

variable [IsStrictOrderedRing α]

theorem thinFrom_ascending {tolerance : α} (ht : 0 ≤ tolerance) (rung : α) (l : List α) :
    (rung :: thinFrom tolerance rung l).Pairwise (· < ·) := by
  induction l generalizing rung with
  | nil => exact List.pairwise_singleton _ _
  | cons x l ih =>
    rw [thinFrom]
    split
    · rename_i hgap
      have hx := ih x
      have hlt : rung < x := by linarith
      refine List.pairwise_cons.2 ⟨fun y hy => ?_, hx⟩
      rcases List.mem_cons.1 hy with rfl | hy
      · exact hlt
      · exact hlt.trans ((List.pairwise_cons.1 hx).1 y hy)
    · exact ih rung

theorem thin_ascending {tolerance : α} (ht : 0 ≤ tolerance) (l : List α) : (thin tolerance l).Pairwise (· < ·) := by
  cases l with
  | nil => exact List.Pairwise.nil
  | cons x l => exact thinFrom_ascending ht x l

/-- No rung is nearer than one with no error. -/
theorem nearestFrom_zero (s : α) (i j : Nat) (rungs : List α) : nearestFrom s i (some (j, 0)) rungs = some (j, 0) := by
  induction rungs generalizing i with
  | nil => rfl
  | cons x rungs ih => rw [nearestFrom, if_neg (not_lt.2 (abs_nonneg _)), ih]

theorem nearestFrom_eq {s : α} {below above : List α} (h : ∀ x ∈ below, x ≠ s) {i : Nat} {best : Option (Nat × α)}
    (hbest : ∀ b ∈ best, 0 < b.2) : nearestFrom s i best (below ++ s :: above) = some (i + below.length, 0) := by
  have herr : |s - s| = 0 := by rw [sub_self, abs_zero]
  induction below generalizing i best with
  | nil =>
    cases best with
    | none => rw [List.nil_append, nearestFrom, herr, nearestFrom_zero, List.length_nil, Nat.add_zero]
    | some b =>
      rw [List.nil_append, nearestFrom, herr, if_pos (hbest b rfl), nearestFrom_zero, List.length_nil, Nat.add_zero]
  | cons x below ih =>
    have hx : 0 < |s - x| := abs_pos.2 (sub_ne_zero.2 (h x List.mem_cons_self).symm)
    have hne : ∀ y ∈ below, y ≠ s := fun y hy => h y (List.mem_cons_of_mem _ hy)
    have hlen : i + (x :: below).length = i + 1 + below.length := by rw [List.length_cons]; omega
    rw [hlen]
    cases best with
    | none =>
      rw [List.cons_append, nearestFrom]
      refine ih hne fun b hb => ?_
      cases hb
      exact hx
    | some b =>
      rw [List.cons_append, nearestFrom]
      refine ih hne fun b' hb' => ?_
      split at hb'
      · cases hb'
        exact hx
      · cases hb'
        exact hbest _ rfl

/-- A value that is a rung is nearest to that one. -/
theorem nearest_getElem {rungs : List α} (h : rungs.Pairwise (· < ·)) {i : Nat} (hi : i < rungs.length) :
    nearest rungs[i] rungs = i := by
  have hsplit : rungs = rungs.take i ++ rungs[i] :: rungs.drop (i + 1) := by
    rw [List.getElem_cons_drop, List.take_append_drop]
  have hbelow : ∀ x ∈ rungs.take i, x ≠ rungs[i] := by
    intro x hx
    rw [hsplit] at h
    exact ne_of_lt ((List.pairwise_append.1 h).2.2 x hx _ List.mem_cons_self)
  have hfrom : nearestFrom rungs[i] 0 none (rungs.take i ++ rungs[i] :: rungs.drop (i + 1)) = _ := nearestFrom_eq hbelow nofun
  rw [← hsplit, List.length_take_of_le (Nat.le_of_lt hi), Nat.zero_add] at hfrom
  rw [nearest, hfrom]
  rfl

end Rungs

end Vento.Lib
