import Mathlib.Algebra.Ring.Nat
import Mathlib.Tactic.Common
import Vento.Lib.Raster
/-!
# Checked offsets

Computations on the offsets of a file that may fail, and that stop where a sum does not fit a
64-bit word: `none` is the overflow. `Returns p q` says that there is none, and what is so
of the value where there is one.

`Located file at bs` says that `bs` stands at an offset of a file.
-/

namespace Vento.Lib

variable {ε α β : Type}

abbrev Checked (ε α : Type) := ExceptT ε Option α

namespace Checked

/-- The overflow. -/
def overflow : Checked ε α := (none : Option (Except ε α))

def add (a b : Nat) : Checked ε Nat := if a + b < 2 ^ 64 then pure (a + b) else overflow

/-- `ok_or`. -/
def okOr (o : Option α) (e : ε) : Checked ε α :=
  match o with
  | some a => pure a
  | none => throw e

/-- It does not overflow, and `q` is so of its value. -/
def Returns (p : Checked ε α) (q : α → Prop) : Prop := ∃ r : Except ε α, p = some r ∧ ∀ a, r = .ok a → q a

@[simp]
theorem pure_inj {a b : α} : (pure a : Checked ε α) = pure b ↔ a = b :=
  ⟨fun h => Except.ok.inj (Option.some.inj h), fun h => h ▸ rfl⟩

theorem throw_ne_pure {e : ε} {a : α} : (throw e : Checked ε α) ≠ pure a := fun h => nomatch Option.some.inj h

@[simp]
theorem okOr_some (a : α) (e : ε) : okOr (some a) e = pure a := rfl

theorem add_eq {a b : Nat} (h : a + b < 2 ^ 64) : (add a b : Checked ε Nat) = pure (a + b) := if_pos h

namespace Returns

theorem pure {q : α → Prop} {a : α} (h : q a) : Returns (pure a : Checked ε α) q :=
  ⟨.ok a, rfl, fun _ heq => by cases heq; exact h⟩

theorem throw (e : ε) (q : α → Prop) : Returns (throw e : Checked ε α) q := ⟨.error e, rfl, fun _ heq => nomatch heq⟩

theorem bind {p : Checked ε α} {f : α → Checked ε β} {q : α → Prop} {q' : β → Prop} (hp : Returns p q)
    (hf : ∀ a, q a → Returns (f a) q') : Returns (p >>= f) q' := by
  obtain ⟨r, hr, hq⟩ := hp
  cases r with
  | error e => exact ⟨.error e, by rw [hr]; rfl, fun _ heq => nomatch heq⟩
  | ok a =>
    obtain ⟨r', hr', hq'⟩ := hf a (hq a rfl)
    exact ⟨r', by rw [hr]; exact hr', hq'⟩

theorem add {a b : Nat} (h : a + b < 2 ^ 64) : Returns (add a b : Checked ε Nat) (· = a + b) := by
  rw [add_eq h]
  exact pure rfl

theorem okOr {o : Option α} {e : ε} {q : α → Prop} (h : ∀ a, o = some a → q a) : Returns (okOr o e) q := by
  cases o with
  | none => exact throw e q
  | some a => exact pure (h a rfl)

theorem mono {p : Checked ε α} {q q' : α → Prop} (h : Returns p q) (hq : ∀ a, q a → q' a) : Returns p q' := by
  obtain ⟨r, hr, ha⟩ := h
  exact ⟨r, hr, fun a heq => hq a (ha a heq)⟩

end Returns

end Checked

/-! ## What stands where -/

/-- `bs` stands in a file from `at_` on. -/
def Located (file : List α) (at_ : Nat) (bs : List α) : Prop := ∃ pre post, file = pre ++ bs ++ post ∧ pre.length = at_

namespace Located

variable {file xs ys : List α} {at_ : Nat}

theorem append (h : Located file at_ (xs ++ ys)) : Located file at_ xs ∧ Located file (at_ + xs.length) ys := by
  obtain ⟨pre, post, rfl, rfl⟩ := h
  refine ⟨⟨pre, ys ++ post, by simp only [List.append_assoc], rfl⟩,
    ⟨pre ++ xs, post, by simp only [List.append_assoc], ?_⟩⟩
  rw [List.length_append]

theorem slice_eq (h : Located file at_ xs) {hi : Nat} (hhi : hi = at_ + xs.length) : slice file at_ hi = some xs := by
  obtain ⟨pre, post, rfl, rfl⟩ := h
  subst hhi
  refine slice_eq_some.2 ⟨Nat.le_add_right _ _, by simp only [List.length_append]; omega, ?_⟩
  rw [← List.length_append, List.take_left, List.drop_left]

theorem of_slice {hi : Nat} (h : slice file at_ hi = some xs) : Located file at_ xs := by
  obtain ⟨hlo, hhi, rfl⟩ := slice_eq_some.1 h
  refine ⟨file.take at_, file.drop hi, ?_, List.length_take_of_le (by omega)⟩
  have hpre : file.take at_ = (file.take hi).take at_ := by rw [List.take_take, Nat.min_eq_left hlo]
  rw [hpre, List.take_append_drop, List.take_append_drop]

theorem le_length (h : Located file at_ xs) : at_ + xs.length ≤ file.length := by
  obtain ⟨pre, post, rfl, rfl⟩ := h
  simp only [List.length_append]
  omega

end Located

end Vento.Lib
