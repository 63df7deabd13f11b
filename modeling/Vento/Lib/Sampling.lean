import Mathlib.Algebra.Order.Ring.Int
import Mathlib.Data.Rat.Floor
import Mathlib.Tactic.NormNum
import Vento.Lib.Ladder
/-!
# Pixels sampled at their centres

A picture of `S` source pixels in a row is drawn on `P` device pixels. `centre` is the source pixel under the centre
of a device pixel, on past the picture's ends; `pinned` is the same with the first and the last device pixel at the
first and the last source pixel; and `carried` is `centre` from an offset in a larger whole, and clamped to it.

Where two of them meet is by how much the picture is shrunk.
-/

namespace Vento.Lib.Sampling

variable {S P q k first whole : Int}

def centre (S P q : Int) : Int := (2 * q + 1) * S / (2 * P)

def pinned (S P q : Int) : Int := if q ≤ 0 then 0 else if P - 1 ≤ q then S - 1 else centre S P q

def carried (first whole S P q : Int) : Int := clamp (first + centre S P q) 0 (whole - 1)

/-! ## Centres -/

theorem le_centre_iff (hP : 0 < P) {n : Int} : n ≤ centre S P q ↔ n * (2 * P) ≤ (2 * q + 1) * S :=
  Int.le_ediv_iff_mul_le (by omega)

theorem centre_lt_iff (hP : 0 < P) {n : Int} : centre S P q < n ↔ (2 * q + 1) * S < n * (2 * P) :=
  Int.ediv_lt_iff_lt_mul (by omega)

/-- The same in rationals. -/
theorem floor_centre (hP : 0 < P) : ⌊((q : ℚ) + 1 / 2) * S / P⌋ = centre S P q := by
  have hP' : (0 : ℚ) < P := by exact_mod_cast hP
  rw [Int.floor_eq_iff, le_div_iff₀ hP', div_lt_iff₀ hP']
  have hlo := (le_centre_iff (S := S) (q := q) hP).1 le_rfl
  have hhi := (centre_lt_iff (S := S) (q := q) hP).1 (lt_add_one _)
  have hlo : ((centre S P q : ℤ) : ℚ) * (2 * P) ≤ (2 * q + 1) * S := by exact_mod_cast hlo
  have hhi : (2 * q + 1) * S < ((centre S P q : ℤ) + 1 : ℚ) * (2 * P) := by exact_mod_cast hhi
  constructor <;> linarith

theorem centre_mono (hS : 0 ≤ S) (hP : 0 < P) (h : q ≤ k) : centre S P q ≤ centre S P k :=
  Int.ediv_le_ediv (by omega) (Int.mul_le_mul_of_nonneg_right (by omega) hS)

theorem centre_nonneg (hS : 0 ≤ S) (hP : 0 < P) (h : 0 ≤ q) : 0 ≤ centre S P q :=
  Int.ediv_nonneg (Int.mul_nonneg (by omega) hS) (by omega)

theorem centre_neg (hS : 0 < S) (hP : 0 < P) (h : q < 0) : centre S P q < 0 := by
  rw [centre_lt_iff hP]
  nlinarith

theorem centre_lt (hS : 0 < S) (hP : 0 < P) (h : q < P) : centre S P q < S := by
  rw [centre_lt_iff hP]
  nlinarith

theorem le_centre (hS : 0 < S) (hP : 0 < P) (h : P ≤ q) : S ≤ centre S P q := by
  rw [le_centre_iff hP]
  nlinarith

/-- The first device pixel is on the first source pixel until that is less than half of it. -/
theorem centre_first_iff (hS : 0 < S) (hP : 0 < P) : centre S P 0 = 0 ↔ S < 2 * P := by
  have hnonneg := centre_nonneg hS.le hP (le_refl 0)
  have hlt := centre_lt_iff (S := S) (q := 0) hP (n := 1)
  constructor
  · intro h
    have := hlt.1 (by omega)
    omega
  · intro h
    have := hlt.2 (by omega)
    omega

theorem centre_last_iff (hS : 0 < S) (hP : 0 < P) : centre S P (P - 1) = S - 1 ↔ S ≤ 2 * P := by
  have hlt := centre_lt hS hP (show P - 1 < P by omega)
  have hle := le_centre_iff (S := S) (q := P - 1) hP (n := S - 1)
  have hexpand : (2 * (P - 1) + 1) * S = (S - 1) * (2 * P) + (2 * P - S) := by ring
  constructor
  · intro h
    have := hle.1 (by omega)
    omega
  · intro h
    have := hle.2 (by omega)
    omega

/-! ## Pinned at the ends -/

theorem pinned_mem (hS : 0 < S) (hP : 0 < P) (q : Int) : 0 ≤ pinned S P q ∧ pinned S P q < S := by
  unfold pinned
  split
  · omega
  · split
    · omega
    · exact ⟨centre_nonneg hS.le hP (by omega), centre_lt hS hP (by omega)⟩

theorem pinned_of_le (h : q ≤ 0) : pinned S P q = 0 := if_pos h

theorem pinned_of_ge (h0 : 0 < q) (h : P - 1 ≤ q) : pinned S P q = S - 1 := by
  rw [pinned, if_neg (by omega), if_pos h]

theorem pinned_of_mem (h0 : 0 < q) (h : q < P - 1) : pinned S P q = centre S P q := by
  rw [pinned, if_neg (by omega), if_neg (by omega)]

theorem pinned_mono (hS : 0 < S) (hP : 0 < P) (h : q ≤ k) : pinned S P q ≤ pinned S P k := by
  have hq := pinned_mem hS hP q
  have hk := pinned_mem hS hP k
  rcases le_or_gt q 0 with hq0 | hq0
  · rw [pinned_of_le hq0]
    exact hk.1
  · rcases le_or_gt (P - 1) k with hkP | hkP
    · rw [pinned_of_ge (hq0.trans_le h) hkP]
      omega
    · rw [pinned_of_mem hq0 (by omega), pinned_of_mem (by omega) hkP]
      exact centre_mono hS.le hP h

theorem pinned_last_iff (hP : 0 < P) : pinned S P (P - 1) = S - 1 ↔ (P = 1 → S = 1) := by
  unfold pinned
  split
  · omega
  · rw [if_pos (le_refl _)]
    exact iff_of_true rfl (by omega)

/-- Of the picture, the two differ at its ends alone. -/
theorem pinned_eq_centre_iff (hS : 0 < S) (hP : 0 < P) (h0 : 0 ≤ q) (h1 : q < P) :
    pinned S P q = centre S P q ↔ (q = 0 → S < 2 * P) ∧ (q = P - 1 → S ≤ 2 * P) := by
  have hfirst := centre_first_iff hS hP
  have hlast := centre_last_iff hS hP
  unfold pinned
  split
  · obtain rfl : q = 0 := by omega
    omega
  · split
    · obtain rfl : q = P - 1 := by omega
      omega
    · exact iff_of_true rfl (by omega)

/-- A picture that is not shrunk has a device pixel on each of its own: the one under its centre. -/
theorem exists_pinned (h : S ≤ P) {i : Int} (h0 : 0 ≤ i) (h1 : i < S) : ∃ q, 0 ≤ q ∧ q < P ∧ pinned S P q = i := by
  have hS : 0 < S := by omega
  have hP : 0 < P := by omega
  have hq0 := centre_nonneg (P := S) hP.le hS h0
  have hqP := centre_lt (P := S) hP hS h1
  have hlo := (le_centre_iff (S := P) (q := i) hS).1 le_rfl
  have hhi := (centre_lt_iff (S := P) (q := i) hS).1 (lt_add_one _)
  generalize centre P S i = q at *
  have hcentre : centre S P q = i := by
    refine le_antisymm (Int.lt_add_one_iff.1 ((centre_lt_iff hP).2 ?_)) ((le_centre_iff hP).2 (by linarith))
    rcases h.lt_or_eq with hlt | rfl
    · linarith
    · have hle : 2 * q ≤ 2 * i + 1 := by nlinarith
      have hle : q ≤ i := by omega
      nlinarith
  rw [← hcentre]
  exact ⟨q, hq0, hqP, (pinned_eq_centre_iff hS hP hq0 hqP).2 ⟨fun _ => by omega, fun _ => by omega⟩⟩

theorem pinned_self (h0 : 0 ≤ q) (h1 : q < S) : pinned S S q = q := by
  have hP : 0 < S := by omega
  have hcentre : centre S S q = q := by
    refine le_antisymm ?_ ((le_centre_iff hP).2 (by nlinarith))
    exact Int.lt_add_one_iff.1 ((centre_lt_iff hP).2 (by nlinarith))
  rw [(pinned_eq_centre_iff hP hP h0 h1).2 ⟨fun _ => by omega, fun _ => by omega⟩, hcentre]

/-! ## Carried past the ends -/

theorem carried_of_mem (hS : 0 < S) (hP : 0 < P) (hfirst : 0 ≤ first) (hfits : first + S ≤ whole) (h0 : 0 ≤ q)
    (h1 : q < P) : carried first whole S P q = first + centre S P q := by
  have hnonneg := centre_nonneg hS.le hP h0
  have hlt := centre_lt hS hP h1
  exact clamp_of_mem (by omega) (by omega)

theorem carried_mem (first S P q : Int) (hwhole : 0 < whole) :
    0 ≤ carried first whole S P q ∧ carried first whole S P q < whole := by
  have h := clamp_mem (first + centre S P q) (show 0 ≤ whole - 1 by omega)
  exact ⟨h.1, Int.lt_of_le_sub_one h.2⟩

theorem carried_mono (hS : 0 ≤ S) (hP : 0 < P) (hwhole : 0 < whole) (h : q ≤ k) :
    carried first whole S P q ≤ carried first whole S P k :=
  clamp_mono (by omega) (Int.add_le_add_left (centre_mono hS hP h) _)

section
variable (hS : 0 < S) (hP : 0 < P) (hfirst : 0 ≤ first) (hfits : first + S ≤ whole) (h : q ≤ k)
include hS hP hfirst hfits h

/-- What is carried in from before is not past what is pinned, where the two agree on the first device pixel if it is
both, and where nothing of the whole is past the picture if the picture is all before. -/
theorem carried_le_pinned (hshrunk : q = 0 → k = 0 → S < 2 * P) (hpast : P ≤ q → whole ≤ first + S) :
    carried first whole S P q ≤ first + pinned S P k := by
  have hmem := pinned_mem hS hP k
  have hcarried := carried_mem first S P q (show 0 < whole by omega)
  rcases lt_or_ge q 0 with hq | hq
  · have hneg := centre_neg hS hP hq
    have hclamp := clamp_cases (first + centre S P q) 0 (whole - 1)
    unfold carried at *
    omega
  rcases lt_or_ge q P with hqP | hqP
  · rw [carried_of_mem hS hP hfirst hfits hq hqP]
    apply Int.add_le_add_left
    rcases le_or_gt k 0 with hk | hk
    · obtain ⟨rfl, rfl⟩ : q = 0 ∧ k = 0 := by omega
      rw [(centre_first_iff hS hP).2 (hshrunk rfl rfl)]
      exact hmem.1
    · rcases le_or_gt (P - 1) k with hkP | hkP
      · rw [pinned_of_ge hk hkP]
        exact Int.le_sub_one_of_lt (centre_lt hS hP hqP)
      · rw [pinned_of_mem hk hkP]
        exact centre_mono hS.le hP h
  · have := hpast hqP
    rw [pinned_of_ge (by omega) (by omega)]
    omega

/-- And the other way, out past the end. -/
theorem pinned_le_carried (hshrunk : q = P - 1 → k = P - 1 → S ≤ 2 * P) (hbefore : k < 0 → first = 0) :
    first + pinned S P q ≤ carried first whole S P k := by
  have hmem := pinned_mem hS hP q
  have hcarried := carried_mem first S P k (show 0 < whole by omega)
  rcases lt_or_ge k 0 with hk | hk
  · have := hbefore hk
    rw [pinned_of_le (by omega)]
    omega
  rcases lt_or_ge k P with hkP | hkP
  · rw [carried_of_mem hS hP hfirst hfits hk hkP]
    apply Int.add_le_add_left
    rcases le_or_gt q 0 with hq | hq
    · rw [pinned_of_le hq]
      exact centre_nonneg hS.le hP hk
    · rcases le_or_gt (P - 1) q with hqP | hqP
      · obtain ⟨rfl, rfl⟩ : q = P - 1 ∧ k = P - 1 := by omega
        rw [(centre_last_iff hS hP).2 (hshrunk rfl rfl)]
        omega
      · rw [pinned_of_mem hq hqP]
        exact centre_mono hS.le hP h
  · have hpast := le_centre hS hP hkP
    have hclamp := clamp_cases (first + centre S P k) 0 (whole - 1)
    unfold carried at *
    omega

end

end Vento.Lib.Sampling
