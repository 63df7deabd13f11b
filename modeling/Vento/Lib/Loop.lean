import Mathlib.Data.List.Basic
import Mathlib.Data.Option.Basic
/-!
# Loops over an index, and the memory they write

`loop` is `for i in k..k + n` whose body may fail; `loop_spec` is its invariant rule, which
also says that it does not. `Buffer` is a run of memory of a fixed length, of which a loop
reads and writes a window at a time.
-/

namespace Vento.Lib

variable {σ α : Type}

def loop (f : Nat → σ → Option σ) : Nat → Nat → σ → Option σ
  | _, 0, s => some s
  | k, n + 1, s => do
    let s ← f k s
    loop f (k + 1) n s

/-- What holds before the loop and is kept by each pass holds after it, and it gets there. -/
theorem loop_spec {f : Nat → σ → Option σ} (P : Nat → σ → Prop) :
    ∀ {n k : Nat} {s : σ}, P k s → (∀ i s, k ≤ i → i < k + n → P i s → ∃ s', f i s = some s' ∧ P (i + 1) s') →
      ∃ s', loop f k n s = some s' ∧ P (k + n) s' := by
  intro n
  induction n with
  | zero =>
    intro k s h _
    exact ⟨s, rfl, h⟩
  | succ n ih =>
    intro k s h hstep
    obtain ⟨s₁, h₁, hp₁⟩ := hstep k s (Nat.le_refl _) (by omega) h
    obtain ⟨s', h', hp'⟩ := ih hp₁ fun i t hi hn ht => hstep i t (by omega) (by omega) ht
    refine ⟨s', ?_, by rwa [show k + (n + 1) = k + 1 + n by omega]⟩
    rw [loop, h₁]
    exact h'

/-- A run of memory: its length, and what is at each place below it. -/
structure Buffer (α : Type) where
  len : Nat
  get : Nat → α

namespace Buffer

/-- `&b[k..][..n]`. -/
def window? (b : Buffer α) (k n : Nat) : Option (List α) :=
  if k + n ≤ b.len then some ((List.range n).map fun i => b.get (k + i)) else none

/-- `l` written from `k` on. -/
def put (b : Buffer α) (k : Nat) (l : List α) : Buffer α :=
  ⟨b.len, fun j => if k ≤ j then (l[j - k]?).getD (b.get j) else b.get j⟩

@[simp] theorem put_len (b : Buffer α) (k : Nat) (l : List α) : (b.put k l).len = b.len := rfl

theorem window?_eq {b : Buffer α} {k n : Nat} (h : k + n ≤ b.len) :
    b.window? k n = some ((List.range n).map fun i => b.get (k + i)) := if_pos h

theorem put_get_inside (b : Buffer α) (k : Nat) (l : List α) {i : Nat} (h : i < l.length) :
    (b.put k l).get (k + i) = l[i] := by
  simp [put, h]

theorem put_get_outside (b : Buffer α) {k j : Nat} (l : List α) (h : j < k ∨ k + l.length ≤ j) :
    (b.put k l).get j = b.get j := by
  unfold put
  rcases h with h | h
  · exact if_neg (by omega)
  · have hn : l[j - k]? = none := List.getElem?_eq_none (by omega)
    simp [hn]

/-- The first `n` columns of the rows that `rows` selects, out of `h` rows of `w`. -/
def writeRows (b : Buffer α) (w n h : Nat) (rows : Nat → Bool) (src : Nat → Nat → α) : Buffer α :=
  (List.range h).foldl (fun b row => if rows row then b.put (row * w) ((List.range n).map (src row)) else b) b

theorem writeRows_succ (b : Buffer α) (w n h : Nat) (rows : Nat → Bool) (src : Nat → Nat → α) :
    b.writeRows w n (h + 1) rows src =
      if rows h then (b.writeRows w n h rows src).put (h * w) ((List.range n).map (src h))
      else b.writeRows w n h rows src := by
  simp [writeRows, List.range_succ]

@[simp] theorem writeRows_len (b : Buffer α) (w n h : Nat) (rows : Nat → Bool) (src : Nat → Nat → α) :
    (b.writeRows w n h rows src).len = b.len := by
  induction h with
  | zero => rfl
  | succ h ih =>
    rw [writeRows_succ]
    split <;> simp [ih]

/-- A row that is written is what it is written from, up to the columns it is written in, and nothing else
is touched. -/
theorem writeRows_get (b : Buffer α) {w n : Nat} (h : Nat) (rows : Nat → Bool) (src : Nat → Nat → α) (hn : n ≤ w)
    {r c : Nat} (hc : c < w) :
    (b.writeRows w n h rows src).get (r * w + c) =
      if r < h ∧ rows r = true ∧ c < n then src r c else b.get (r * w + c) := by
  induction h with
  | zero => simp [writeRows]
  | succ h ih =>
    have hrow : r < h → r * w + c < h * w := by
      intro hr
      calc r * w + c < (r + 1) * w := by rw [Nat.succ_mul]; omega
        _ ≤ h * w := Nat.mul_le_mul_right w hr
    have hrow' : h < r → h * w + w ≤ r * w + c := by
      intro hr
      calc h * w + w = (h + 1) * w := (Nat.succ_mul h w).symm
        _ ≤ r * w := Nat.mul_le_mul_right w hr
        _ ≤ r * w + c := Nat.le_add_right _ _
    rw [writeRows_succ]
    rcases Nat.lt_trichotomy r h with hr | rfl | hr
    · have hout : ∀ l : List α, ((b.writeRows w n h rows src).put (h * w) l).get (r * w + c) =
          (b.writeRows w n h rows src).get (r * w + c) := fun l => put_get_outside _ l (Or.inl (hrow hr))
      have hlt : r < h + 1 := by omega
      simp only [hr, hlt, true_and] at ih ⊢
      split
      · rw [hout, ih]
      · exact ih
    · cases hsel : rows r with
      | false => simp [ih, hsel]
      | true =>
        rw [if_pos rfl]
        by_cases hcn : c < n
        · rw [put_get_inside _ _ _ (by simpa using hcn)]
          simp [hcn]
        · rw [put_get_outside _ _ (Or.inr (by simp; omega)), ih]
          simp [hcn]
    · have hlt : ¬ r < h := by omega
      have hlt' : ¬ r < h + 1 := by omega
      simp only [hlt, hlt', false_and, if_false] at ih ⊢
      split
      · have hpast := hrow' hr
        rw [put_get_outside _ _ (Or.inr (by simp; omega)), ih]
      · exact ih

end Buffer

end Vento.Lib
