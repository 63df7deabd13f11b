import Mathlib.Data.List.Basic
import Mathlib.Data.Option.Basic
/-!
# A run of reads

The values a partial function has at `n` places in a row, none where it has none at one of
them: what a loop over an index computes whose body may fail.
-/

namespace Vento.Lib

variable {α β : Type}

def collect (f : Nat → Option α) (k : Nat) : Nat → Option (List α)
  | 0 => some []
  | n + 1 => do
    let a ← f k
    let rest ← collect f (k + 1) n
    some (a :: rest)

theorem collect_eq_some_iff (f : Nat → Option α) :
    ∀ (n k : Nat) (l : List α), collect f k n = some l ↔ l.length = n ∧ ∀ i < n, f (k + i) = l[i]? := by
  intro n
  induction n with
  | zero =>
    intro k l
    simp [collect, eq_comm]
  | succ n ih =>
    intro k l
    constructor
    · intro h
      simp only [collect, Option.bind_eq_bind, Option.bind_eq_some_iff] at h
      obtain ⟨a, ha, rest, hr, hl⟩ := h
      obtain ⟨hlen, hget⟩ := (ih (k + 1) rest).mp hr
      cases hl
      refine ⟨by simp [hlen], ?_⟩
      intro i hi
      cases i with
      | zero => simpa using ha
      | succ i =>
        have := hget i (by omega)
        rw [show k + (i + 1) = k + 1 + i by omega, this]
        simp
    · rintro ⟨hlen, hget⟩
      obtain _ | ⟨a, rest⟩ := l
      · simp at hlen
      · have ha : f k = some a := by simpa using hget 0 (by omega)
        have hr : collect f (k + 1) n = some rest := by
          refine (ih (k + 1) rest).mpr ⟨by simpa using hlen, ?_⟩
          intro i hi
          have := hget (i + 1) (by omega)
          rw [show k + 1 + i = k + (i + 1) by omega, this]
          simp
        simp [collect, ha, hr]

/-- A run of reads goes through where each of them does. -/
theorem collect_isSome_iff (f : Nat → Option α) (k n : Nat) :
    (collect f k n).isSome ↔ ∀ i < n, (f (k + i)).isSome := by
  constructor
  · intro h i hi
    obtain ⟨l, hl⟩ := Option.isSome_iff_exists.mp h
    obtain ⟨hlen, hget⟩ := (collect_eq_some_iff f n k l).mp hl
    rw [hget i hi]
    simp [hlen, hi]
  · intro h
    induction n generalizing k with
    | zero => rfl
    | succ n ih =>
      obtain ⟨a, ha⟩ := Option.isSome_iff_exists.mp (h 0 (by omega))
      have hr := ih (k + 1) (by
        intro i hi
        rw [show k + 1 + i = k + (i + 1) by omega]
        exact h (i + 1) (by omega))
      obtain ⟨rest, hrest⟩ := Option.isSome_iff_exists.mp hr
      simp only [Nat.add_zero] at ha
      simp [collect, ha, hrest]

end Vento.Lib
