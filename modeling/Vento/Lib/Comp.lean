import Mathlib.Tactic.Common
/-!
# Computations that keep their state when they fail

A computation over a state `σ` that may fail leaves the state as it was when it
failed. `Moves R p` says that `R` relates the states before and after `p`,
however it ends; where `R` is reflexive and transitive it is enough to know it
of each step.
-/

namespace Vento.Lib

variable {ε σ α β : Type}

abbrev Comp (ε σ : Type) := ExceptT ε (StateM σ)

namespace Comp

theorem bind_ok {p : Comp ε σ α} {f : α → Comp ε σ β} {s s' : σ} {a : α} (h : p s = (.ok a, s')) :
    (p >>= f) s = f a s' := by
  show (ExceptT.bindCont f (p s).1) (p s).2 = _
  rw [h]
  rfl

theorem bind_error {p : Comp ε σ α} {f : α → Comp ε σ β} {s s' : σ} {e : ε} (h : p s = (.error e, s')) :
    (p >>= f) s = (.error e, s') := by
  show (ExceptT.bindCont f (p s).1) (p s).2 = _
  rw [h]
  rfl

/-- How a sequence ends where it succeeds. -/
theorem bind_eq_ok {p : Comp ε σ α} {f : α → Comp ε σ β} {s s' : σ} {b : β} :
    (p >>= f) s = (.ok b, s') ↔ ∃ a s₁, p s = (.ok a, s₁) ∧ f a s₁ = (.ok b, s') := by
  constructor
  · intro h
    cases hp : p s with
    | mk r s₁ =>
      cases r with
      | error e =>
        rw [bind_error hp] at h
        cases h
      | ok a =>
        rw [bind_ok hp] at h
        exact ⟨a, s₁, rfl, h⟩
  · rintro ⟨a, s₁, hp, hf⟩
    rw [bind_ok hp, hf]

theorem pure_eq_ok {s s' : σ} {a b : α} : (pure a : Comp ε σ α) s = (.ok b, s') ↔ a = b ∧ s = s' := by
  constructor
  · intro h
    cases h
    exact ⟨rfl, rfl⟩
  · rintro ⟨rfl, rfl⟩
    rfl

/-- The states before and after. -/
def Moves (R : σ → σ → Prop) (p : Comp ε σ α) : Prop := ∀ s, R s (p s).2

namespace Moves

variable {R : σ → σ → Prop}

theorem pure (hrefl : ∀ s, R s s) (a : α) : Moves R (pure a : Comp ε σ α) := hrefl

theorem bind (htrans : ∀ s t u, R s t → R t u → R s u) {p : Comp ε σ α} {f : α → Comp ε σ β} (hp : Moves R p)
    (hf : ∀ a, Moves R (f a)) : Moves R (p >>= f) := by
  intro s
  have hs := hp s
  cases h : p s with
  | mk r s' =>
    rw [h] at hs
    cases r with
    | error e =>
      rw [bind_error h]
      exact hs
    | ok a =>
      rw [bind_ok h]
      exact htrans s s' _ hs (hf a s')

theorem mono {R' : σ → σ → Prop} {p : Comp ε σ α} (hp : Moves R p) (h : ∀ s t, R s t → R' s t) : Moves R' p :=
  fun s => h s _ (hp s)

end Moves

end Comp

end Vento.Lib
