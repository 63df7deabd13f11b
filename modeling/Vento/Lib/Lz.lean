import Mathlib.Algebra.Ring.Nat
import Mathlib.Data.List.Basic
import Mathlib.Tactic.Common
/-!
# Runs and references back

What an LZ stream says, over any type of values: runs that are there as they are, and runs of so many values from so
far back, which may be ones that the run itself has made. `expand` is what the runs come to, and `Decodes` what the
first `count` values are. A decoder that stops at `count` is `decodeTo`.
-/

namespace Vento.Lib.Lz

variable {α : Type}

inductive Run (α : Type) where
  | literal (xs : List α)
  | back (length offset : Nat)
deriving DecidableEq, Repr

namespace Run

def size : Run α → Nat
  | literal xs => xs.length
  | back n _ => n

/-- What a run refers to is there after `n` values. -/
def inReach (n : Nat) : Run α → Bool
  | literal _ => true
  | back _ offset => 0 < offset ∧ offset ≤ n

end Run

/-- `n` more values, each the one `offset` before it. -/
def extend (offset : Nat) : Nat → List α → Option (List α)
  | 0, out => some out
  | n + 1, out => do
    let a ← out[out.length - offset]?
    extend offset n (out ++ [a])

def Run.apply (out : List α) : Run α → Option (List α)
  | literal xs => some (out ++ xs)
  | back n offset => if 0 < offset ∧ offset ≤ out.length then extend offset n out else none

def expand (runs : List (Run α)) (out : List α) : Option (List α) := runs.foldlM Run.apply out

/-- The first `count` values that the runs come to. -/
def Decodes (count : Nat) (runs : List (Run α)) (values : List α) : Prop :=
  ∃ made rest full, runs = made ++ rest ∧ expand made [] = some full ∧ count ≤ full.length ∧ values = full.take count

/-- The runs after `n` values refer to nothing before the first. -/
def inReach : Nat → List (Run α) → Bool
  | _, [] => true
  | n, r :: runs => r.inReach n && inReach (n + r.size) runs

def total (runs : List (Run α)) : Nat := (runs.map Run.size).sum

/-- Runs that refer to nothing before the first value, and come to fewer than `count`. -/
def Short (count : Nat) (runs : List (Run α)) : Prop := inReach 0 runs = true ∧ total runs < count

instance (count : Nat) (runs : List (Run α)) : Decidable (Short count runs) := inferInstanceAs (Decidable (_ ∧ _))

/-- A decoder with room for `count` values. -/
def decodeTo (count : Nat) : List (Run α) → List α → Option (List α)
  | [], out => some out
  | r :: runs, out =>
    if count ≤ out.length then some out
    else do
      let out ← r.apply out
      decodeTo count runs (out.take count)

/-! ## What a run comes to -/

theorem extend_length {offset n : Nat} {out out' : List α} (h : extend offset n out = some out') :
    out'.length = out.length + n := by
  induction n generalizing out with
  | zero =>
    cases h
    rfl
  | succ n ih =>
    obtain ⟨a, -, ha⟩ := Option.bind_eq_some_iff.1 h
    rw [ih ha, List.length_append, List.length_singleton]
    omega

theorem extend_some {offset : Nat} (n : Nat) {out : List α} (h0 : 0 < offset) (h : offset ≤ out.length) :
    ∃ out', extend offset n out = some out' := by
  induction n generalizing out with
  | zero => exact ⟨out, rfl⟩
  | succ n ih =>
    have ha := List.getElem?_eq_getElem (l := out) (i := out.length - offset) (by omega)
    obtain ⟨out', h'⟩ := ih (show offset ≤ (out ++ [out[out.length - offset]]).length by simp; omega)
    exact ⟨out', by rw [extend, ha]; exact h'⟩

theorem extend_prefix {offset n : Nat} {out out' : List α} (h : extend offset n out = some out') : out <+: out' := by
  induction n generalizing out with
  | zero =>
    cases h
    exact List.prefix_rfl
  | succ n ih =>
    obtain ⟨a, -, ha⟩ := Option.bind_eq_some_iff.1 h
    exact (List.prefix_append _ _).trans (ih ha)

theorem apply_length {r : Run α} {out out' : List α} (h : r.apply out = some out') : out'.length = out.length + r.size := by
  cases r with
  | literal xs =>
    cases h
    exact List.length_append
  | back n offset =>
    simp only [Run.apply] at h
    split at h
    · exact extend_length h
    · cases h

/-- A run fails where what it refers to is not there, and nowhere else. -/
theorem apply_isSome (r : Run α) (out : List α) : (r.apply out).isSome = r.inReach out.length := by
  cases r with
  | literal xs => rfl
  | back n offset =>
    simp only [Run.apply, Run.inReach]
    split
    · rename_i h
      obtain ⟨out', h'⟩ := extend_some n h.1 h.2
      simp [h', h.1, h.2]
    · rename_i h
      simpa using h

theorem expand_cons (r : Run α) (runs : List (Run α)) (out : List α) :
    expand (r :: runs) out = (r.apply out).bind (expand runs) := rfl

theorem expand_append (made rest : List (Run α)) (out : List α) :
    expand (made ++ rest) out = (expand made out).bind (expand rest) := by
  unfold expand
  rw [List.foldlM_append]
  rfl

theorem total_cons (r : Run α) (runs : List (Run α)) : total (r :: runs) = r.size + total runs := by
  simp [total]

theorem expand_length {runs : List (Run α)} {out out' : List α} (h : expand runs out = some out') :
    out'.length = out.length + total runs := by
  induction runs generalizing out with
  | nil =>
    cases h
    rfl
  | cons r runs ih =>
    obtain ⟨next, hr, hrest⟩ := Option.bind_eq_some_iff.1 h
    rw [ih hrest, apply_length hr, total_cons, Nat.add_assoc]

theorem expand_isSome (runs : List (Run α)) (out : List α) : (expand runs out).isSome = inReach out.length runs := by
  induction runs generalizing out with
  | nil => rfl
  | cons r runs ih =>
    rw [expand_cons, inReach, ← apply_isSome]
    cases hr : r.apply out with
    | none => rfl
    | some next => exact (ih next).trans (by rw [apply_length hr]; rfl)

/-! ## Where a decoder stops -/

/-- The values are all there. -/
def Full (count : Nat) (runs : List (Run α)) (out values : List α) : Prop :=
  ∃ made rest full, runs = made ++ rest ∧ expand made out = some full ∧ count ≤ full.length ∧ values = full.take count

/-- A run refers to before the first value, and the values are not all there yet. -/
def Astray (count : Nat) (runs : List (Run α)) (out : List α) : Prop :=
  ∃ made r rest full, runs = made ++ r :: rest ∧ expand made out = some full ∧ full.length < count ∧
    r.inReach full.length = false

/-- What is cut off at `count` is not referred to. -/
theorem decodeTo_full {count : Nat} {runs : List (Run α)} {out : List α} (h : out.length = count) :
    decodeTo count runs out = some out := by
  cases runs with
  | nil => rfl
  | cons r runs => exact if_pos (Nat.le_of_eq h.symm)

theorem decodeTo_cases (count : Nat) (runs : List (Run α)) {out : List α} (hout : out.length ≤ count) :
    (∃ values, decodeTo count runs out = some values ∧ values.length = count ∧ Full count runs out values) ∨
    (∃ values, decodeTo count runs out = some values ∧ values.length < count ∧ expand runs out = some values) ∨
    (decodeTo count runs out = none ∧ Astray count runs out) := by
  induction runs generalizing out with
  | nil =>
    rcases Nat.eq_or_lt_of_le hout with h | h
    · exact .inl ⟨out, rfl, h, [], [], out, rfl, rfl, (Nat.le_of_eq h.symm), (List.take_of_length_le (Nat.le_of_eq h)).symm⟩
    · exact .inr (.inl ⟨out, rfl, h, rfl⟩)
  | cons r runs ih =>
    rcases Nat.eq_or_lt_of_le hout with h | h
    · exact .inl ⟨out, if_pos (Nat.le_of_eq h.symm), h, [], r :: runs, out, rfl, rfl, (Nat.le_of_eq h.symm), (List.take_of_length_le (Nat.le_of_eq h)).symm⟩
    · have hstep : decodeTo count (r :: runs) out = (r.apply out).bind fun out => decodeTo count runs (out.take count) :=
        if_neg (by omega)
      cases hr : r.apply out with
      | none =>
        rw [hr] at hstep
        refine .inr (.inr ⟨hstep, [], r, runs, out, rfl, rfl, h, ?_⟩)
        rw [← apply_isSome, hr]
        rfl
      | some next =>
        rw [hr] at hstep
        rcases Nat.lt_or_ge next.length count with hlt | hge
        · rw [Option.bind_some, List.take_of_length_le (Nat.le_of_lt hlt)] at hstep
          have hcons : ∀ rest, expand (r :: rest) out = expand rest next := fun rest => by
            rw [expand_cons, hr]
            rfl
          rcases ih (Nat.le_of_lt hlt) with ⟨values, hv, hlen, made, rest, full, rfl, hm, hc, hval⟩ | ⟨values, hv, hlen, hall⟩ |
            ⟨hv, made, bad, rest, full, rfl, hm, hlen, hbad⟩
          · exact .inl ⟨values, hstep.trans hv, hlen, r :: made, rest, full, rfl, (hcons made).trans hm, hc, hval⟩
          · exact .inr (.inl ⟨values, hstep.trans hv, hlen, (hcons runs).trans hall⟩)
          · exact .inr (.inr ⟨hstep.trans hv, r :: made, bad, rest, full, rfl, (hcons made).trans hm, hlen, hbad⟩)
        · have htake : (next.take count).length = count := List.length_take_of_le hge
          refine .inl ⟨next.take count, hstep.trans (decodeTo_full htake), htake, [r], runs, next, rfl, ?_, hge, rfl⟩
          rw [expand_cons, hr]
          rfl

theorem decodeTo_length {count : Nat} {runs : List (Run α)} {out values : List α} (h : decodeTo count runs out = some values)
    (hout : out.length ≤ count) : values.length ≤ count := by
  rcases decodeTo_cases count runs hout with ⟨v, hv, hlen, -⟩ | ⟨v, hv, hlen, -⟩ | ⟨hv, -⟩
  · cases hv.symm.trans h
    exact Nat.le_of_eq hlen
  · cases hv.symm.trans h
    exact Nat.le_of_lt hlen
  · cases hv.symm.trans h

/-- Runs that come to too few values do not decode. -/
theorem not_decodes_of_short {count : Nat} {runs : List (Run α)} {full values : List α} (hall : expand runs [] = some full)
    (hlen : full.length < count) : ¬Decodes count runs values := by
  rintro ⟨made, rest, part, rfl, hm, hc, -⟩
  rw [expand_append, hm, Option.bind_some] at hall
  have := expand_length hall
  omega

/-- Runs that go astray before the values are all there do not decode. -/
theorem not_decodes_of_astray {count : Nat} {runs : List (Run α)} {values : List α} (h : Astray count runs []) :
    ¬Decodes count runs values := by
  rintro ⟨made', rest', full', he, hm', hc, -⟩
  obtain ⟨made, r, rest, full, rfl, hm, hlen, hbad⟩ := h
  rcases List.append_eq_append_iff.1 he with ⟨mid, rfl, htail⟩ | ⟨mid, rfl, -⟩
  · cases mid with
    | nil =>
      rw [List.append_nil, hm] at hm'
      cases hm'
      omega
    | cons r' mid =>
      have : r' = r := by
        have := congrArg List.head? htail
        simpa using this.symm
      subst this
      rw [expand_append, hm, Option.bind_some, expand_cons] at hm'
      have hr := apply_isSome r' full
      rw [hbad, Option.isSome_eq_false_iff, Option.isNone_iff_eq_none] at hr
      rw [hr] at hm'
      cases hm'
  · rw [expand_append, hm', Option.bind_some] at hm
    have := expand_length hm
    omega

/-- Runs that go astray are not merely short. -/
theorem not_short_of_astray {count : Nat} {runs : List (Run α)} (h : Astray count runs []) : ¬Short count runs := by
  rintro ⟨hreach, -⟩
  obtain ⟨made, r, rest, full, rfl, hm, -, hbad⟩ := h
  have hsome := expand_isSome (made ++ r :: rest) []
  rw [List.length_nil, hreach, expand_append, hm, Option.bind_some, expand_cons] at hsome
  have hr := apply_isSome r full
  rw [hbad, Option.isSome_eq_false_iff, Option.isNone_iff_eq_none] at hr
  rw [hr] at hsome
  cases hsome

/-- Runs that decode come to enough values. -/
theorem not_short_of_decodes {count : Nat} {runs : List (Run α)} {values : List α} (h : Decodes count runs values) :
    ¬Short count runs := by
  obtain ⟨made, rest, full, rfl, hm, hc, -⟩ := h
  have hlen := expand_length hm
  rintro ⟨-, htotal⟩
  rw [total, List.map_append, List.sum_append] at htotal
  rw [List.length_nil, total] at hlen
  omega

theorem short_of_expand {count : Nat} {runs : List (Run α)} {values : List α} (h : expand runs [] = some values)
    (hlen : values.length < count) : Short count runs := by
  have hreach := expand_isSome runs []
  have htotal := expand_length h
  rw [h, List.length_nil] at hreach
  rw [List.length_nil] at htotal
  exact ⟨hreach.symm, by omega⟩

end Vento.Lib.Lz
