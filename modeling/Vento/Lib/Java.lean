import Mathlib.Algebra.Order.Ring.Int
import Mathlib.Data.Rat.Floor
import Mathlib.Tactic.NormNum
import Vento.Lib.Ladder
/-!
# Java's numbers

An `int` is an `Int32`, and a `float` is the rational that it stands for: what an `int` is
widened to, and the cast back, which drops the fraction and stops at the limits.
-/

namespace Vento.Lib.Java

/-- `Math.max` of `int`s. -/
def maxInt (a b : Int32) : Int32 := if a < b then b else a

/-- An `int` as a `float`. -/
def float (n : Int32) : ℚ := (n.toInt : ℚ)

/-- Towards zero. -/
def trunc (x : ℚ) : Int := if 0 ≤ x then ⌊x⌋ else ⌈x⌉

/-- `(int) x`. -/
def castInt (x : ℚ) : Int32 := Int32.ofInt (clamp (trunc x) (-2 ^ 31) (2 ^ 31 - 1))

theorem toInt_castInt (x : ℚ) : (castInt x).toInt = clamp (trunc x) (-2 ^ 31) (2 ^ 31 - 1) := by
  have h := clamp_mem (trunc x) (show (-2 ^ 31 : Int) ≤ 2 ^ 31 - 1 by decide)
  exact Int32.toInt_ofInt_of_le h.1 (Int.lt_of_le_sub_one h.2)

theorem trunc_intCast (n : Int) : trunc (n : ℚ) = n := by
  unfold trunc
  split
  · exact Int.floor_intCast n
  · exact Int.ceil_intCast n

/-- What the cast drops is less than one, and of the sign of the number. -/
theorem trunc_cases (x : ℚ) :
    (0 ≤ x ∧ (0 : ℚ) ≤ trunc x ∧ trunc x ≤ x ∧ x < trunc x + 1) ∨
      (x < 0 ∧ (trunc x : ℚ) ≤ 0 ∧ x ≤ trunc x ∧ (trunc x : ℚ) - 1 < x) := by
  unfold trunc
  split
  · rename_i h
    exact .inl ⟨h, Int.cast_nonneg (Int.floor_nonneg.2 h), Int.floor_le x, Int.lt_floor_add_one x⟩
  · rename_i h
    have h := not_le.1 h
    refine .inr ⟨h, ?_, Int.le_ceil x, by linarith [Int.ceil_lt_add_one x]⟩
    exact_mod_cast Int.ceil_le.2 (by exact_mod_cast h.le)

theorem abs_sub_trunc_lt (x : ℚ) : |x - trunc x| < 1 := by
  rw [abs_lt]
  rcases trunc_cases x with ⟨-, -, h1, h2⟩ | ⟨-, -, h1, h2⟩
  · constructor <;> linarith
  · constructor <;> linarith

theorem float_castInt {x : ℚ} (hlo : -2 ^ 31 ≤ trunc x) (hhi : trunc x < 2 ^ 31) : float (castInt x) = trunc x := by
  rw [float, toInt_castInt, clamp_of_mem hlo (Int.le_sub_one_of_lt hhi)]

/-- The cast drops less than one where it does not stop at a limit, and only there. -/
theorem abs_sub_castInt_lt_iff (x : ℚ) : |x - float (castInt x)| < 1 ↔ -2 ^ 31 - 1 < x ∧ x < 2 ^ 31 := by
  constructor
  · intro h
    obtain ⟨hlo, hhi⟩ := abs_lt.1 h
    have hmem := clamp_mem (trunc x) (show (-2 ^ 31 : Int) ≤ 2 ^ 31 - 1 by decide)
    rw [← toInt_castInt] at hmem
    have h1 : ((-2 ^ 31 : Int) : ℚ) ≤ float (castInt x) := Int.cast_le.2 hmem.1
    have h2 : float (castInt x) ≤ ((2 ^ 31 - 1 : Int) : ℚ) := Int.cast_le.2 hmem.2
    push_cast at h1 h2
    constructor <;> linarith
  · rintro ⟨hlo, hhi⟩
    have hrange : -2 ^ 31 ≤ trunc x ∧ trunc x < 2 ^ 31 := by
      rcases trunc_cases x with ⟨-, h0, hle, -⟩ | ⟨-, h0, hle, -⟩
      · have h0 : 0 ≤ trunc x := by exact_mod_cast h0
        have hlt : trunc x < 2 ^ 31 := by exact_mod_cast hle.trans_lt hhi
        exact ⟨by omega, hlt⟩
      · have h0 : trunc x ≤ 0 := by exact_mod_cast h0
        have hlt : (-2 ^ 31 - 1 : Int) < trunc x := by exact_mod_cast hlo.trans_le hle
        exact ⟨by omega, by omega⟩
    rw [float_castInt hrange.1 hrange.2]
    exact abs_sub_trunc_lt x

theorem toInt_maxInt (a b : Int32) : (maxInt a b).toInt = max a.toInt b.toInt := by
  unfold maxInt
  split
  · rename_i h
    rw [max_eq_right (Int.le_of_lt (Int32.lt_iff_toInt_lt.1 h))]
  · rename_i h
    rw [max_eq_left (Int.not_lt.1 fun hlt => h (Int32.lt_iff_toInt_lt.2 hlt))]

/-- A difference that does not leave the range. -/
theorem toInt_sub {a b : Int32} (hlo : -2 ^ 31 ≤ a.toInt - b.toInt) (hhi : a.toInt - b.toInt < 2 ^ 31) :
    (a - b).toInt = a.toInt - b.toInt := by
  rw [Int32.toInt_sub, Int.bmod_eq_of_le (by omega) (by omega)]

theorem toInt_add {a b : Int32} (hlo : -2 ^ 31 ≤ a.toInt + b.toInt) (hhi : a.toInt + b.toInt < 2 ^ 31) :
    (a + b).toInt = a.toInt + b.toInt := by
  rw [Int32.toInt_add, Int.bmod_eq_of_le (by omega) (by omega)]

end Vento.Lib.Java
