import Mathlib.Data.List.Basic
import Mathlib.Tactic.Common
/-!
# UTF-16

Texts as lists of 16-bit units, any of which may be half of a surrogate pair
without its other half. The code points of a text read from its front and
counted from its back are the same ones, and a text may be cut wherever no pair
is cut in two.
-/

namespace Vento.Lib.Utf16

def isHighSurrogate (c : UInt16) : Bool := 0xd800 ≤ c && c ≤ 0xdbff

def isLowSurrogate (c : UInt16) : Bool := 0xdc00 ≤ c && c ≤ 0xdfff

theorem not_low_of_high {c : UInt16} (h : isHighSurrogate c = true) : isLowSurrogate c = false := by
  simp only [isHighSurrogate, isLowSurrogate, Bool.and_eq_true, decide_eq_true_eq, Bool.and_eq_false_iff,
    decide_eq_false_iff_not, UInt16.le_iff_toNat_le] at h ⊢
  left
  simp only [UInt16.reduceToNat] at h ⊢
  omega

def toCodePoint (high low : UInt16) : UInt32 :=
  (high.toUInt32 - 0xd800) * 0x400 + (low.toUInt32 - 0xdc00) + 0x10000

/-- The code points of a text; half a pair is one of its own. -/
def codePoints : List UInt16 → List UInt32
  | [] => []
  | [c] => [c.toUInt32]
  | c :: d :: cs =>
    if isHighSurrogate c && isLowSurrogate d then toCodePoint c d :: codePoints cs
    else c.toUInt32 :: codePoints (d :: cs)

/-- How many code points there are in the last `n` units of a text, which is
given backwards. -/
def countBefore : List UInt16 → Nat → Nat
  | _, 0 => 0
  | [], _ + 1 => 0
  | [_], _ + 1 => 1
  | d :: c :: cs, n + 1 =>
    if isLowSurrogate d && isHighSurrogate c then countBefore cs (n - 1) + 1 else countBefore (c :: cs) n + 1

/-- A text cut here is cut between code points. -/
def Between (a b : List UInt16) : Prop :=
  ∀ c ∈ a.getLast?, ∀ d ∈ b.head?, ¬(isHighSurrogate c = true ∧ isLowSurrogate d = true)

theorem between_nil (a : List UInt16) : Between a [] := nofun

theorem between_of_not_high {a b : List UInt16} (h : ∀ c ∈ a.getLast?, isHighSurrogate c = false) : Between a b := by
  intro c hc d _ hpair
  rw [h c hc] at hpair
  exact absurd hpair.1 Bool.false_ne_true

theorem between_of_not_low {a b : List UInt16} (h : ∀ d ∈ b.head?, isLowSurrogate d = false) : Between a b := by
  intro c _ d hd hpair
  rw [h d hd] at hpair
  exact absurd hpair.2 Bool.false_ne_true

theorem codePoints_append {a b : List UInt16} (h : Between a b) : codePoints (a ++ b) = codePoints a ++ codePoints b := by
  fun_induction codePoints a with
  | case1 => rfl
  | case2 c =>
    cases b with
    | nil => rfl
    | cons d b =>
      have hnot : ¬(isHighSurrogate c && isLowSurrogate d) = true := by
        rw [Bool.and_eq_true]
        exact h c rfl d rfl
      rw [List.singleton_append, codePoints, if_neg hnot]
      rfl
  | case3 c d cs hpair ih =>
    rw [List.cons_append, List.cons_append, codePoints, if_pos hpair, List.cons_append]
    refine congrArg _ (ih ?_)
    cases cs with
    | nil => exact nofun
    | cons e cs => exact h
  | case4 c d cs hpair ih =>
    rw [List.cons_append, List.cons_append, codePoints, if_neg hpair, List.cons_append]
    exact congrArg _ (ih h)

/-- Counting from the back finds the code points there are from the front. -/
theorem countBefore_reverse {a : List UInt16} (r : List UInt16) (h : Between a r.reverse) :
    countBefore (r ++ a.reverse) r.length = (codePoints r.reverse).length := by
  match r, h with
  | [], _ =>
    rw [List.length_nil]
    cases a.reverse <;> rfl
  | [d], h =>
    cases hrev : a.reverse with
    | nil => rfl
    | cons c cs =>
      have hlast : a.getLast? = some c := by rw [List.getLast?_eq_head?_reverse, hrev, List.head?_cons]
      have hnot : ¬(isLowSurrogate d && isHighSurrogate c) = true := by
        rw [Bool.and_comm, Bool.and_eq_true]
        exact h c hlast d rfl
      rw [List.singleton_append, List.length_singleton, countBefore, if_neg hnot]
      rfl
  | d :: c :: cs, h =>
    have hrev : (d :: c :: cs).reverse = cs.reverse ++ [c, d] := by simp
    rw [List.cons_append, List.cons_append, List.length_cons, List.length_cons, countBefore, hrev]
    by_cases hpair : (isLowSurrogate d && isHighSurrogate c) = true
    · -- the pair is no part of another
      have hpair' : (isHighSurrogate c && isLowSurrogate d) = true := by rwa [Bool.and_comm]
      have hcut : Between cs.reverse [c, d] := by
        apply between_of_not_low
        rintro _ ⟨⟩
        exact not_low_of_high (Bool.and_eq_true_iff.1 hpair').1
      have hrest : Between a cs.reverse := by
        rw [hrev] at h
        cases hcs : cs.reverse with
        | nil => exact between_nil a
        | cons e es =>
          rw [hcs] at h
          exact h
      rw [if_pos hpair, codePoints_append hcut, List.length_append, Nat.add_sub_cancel, countBefore_reverse cs hrest,
        codePoints, if_pos hpair']
      rfl
    · have hpair' : ¬(isHighSurrogate c && isLowSurrogate d) = true := by rwa [Bool.and_comm]
      have hcut : Between (cs.reverse ++ [c]) [d] := by
        intro e he f hf
        rw [List.getLast?_concat] at he
        cases he
        cases hf
        rwa [← Bool.and_eq_true]
      have hrest : Between a (c :: cs).reverse := by
        rw [hrev] at h
        rw [List.reverse_cons]
        cases hcs : cs.reverse with
        | nil =>
          rw [hcs] at h
          exact h
        | cons e es =>
          rw [hcs] at h
          exact h
      have hsplit : cs.reverse ++ [c, d] = (cs.reverse ++ [c]) ++ [d] := by simp
      have hcount := countBefore_reverse (c :: cs) hrest
      rw [List.cons_append, List.length_cons, List.reverse_cons] at hcount
      rw [if_neg hpair, hsplit, codePoints_append hcut, List.length_append, hcount]
      rfl

/-- A text cut between code points: those after the cut, counted from the back. -/
theorem countBefore_eq {a b : List UInt16} (h : Between a b) :
    countBefore (a ++ b).reverse b.length = (codePoints b).length := by
  have hcount := @countBefore_reverse a b.reverse (by rwa [List.reverse_reverse])
  rwa [List.length_reverse, List.reverse_reverse, ← List.reverse_append] at hcount

/-- There are code points up to U+10FFFF. -/
theorem codePoints_lt {text : List UInt16} {cp : UInt32} (h : cp ∈ codePoints text) : cp.toNat < 0x110000 := by
  have hunit : ∀ c : UInt16, c.toUInt32.toNat < 0x110000 := by
    intro c
    have hc := c.toNat_lt
    rw [UInt16.toNat_toUInt32]
    omega
  fun_induction codePoints text with
  | case1 => cases h
  | case2 c =>
    rw [List.mem_singleton] at h
    rw [h]
    exact hunit c
  | case3 c d cs hpair ih =>
    rcases List.mem_cons.1 h with rfl | h
    · simp only [isHighSurrogate, isLowSurrogate, Bool.and_eq_true, decide_eq_true_eq, UInt16.le_iff_toNat_le,
        UInt16.reduceToNat] at hpair
      simp only [toCodePoint, UInt32.toNat_add, UInt32.toNat_mul, UInt32.toNat_sub, UInt16.toNat_toUInt32,
        UInt32.reduceToNat]
      omega
    · exact ih h
  | case4 c d cs hpair ih =>
    rcases List.mem_cons.1 h with rfl | h
    · exact hunit c
    · exact ih h

/-! ## Characters -/

/-- A character's units: itself, or a pair. -/
def units (c : Char) : List UInt16 :=
  if c.val < 0x10000 then [c.val.toUInt16]
  else [0xd800 + ((c.val - 0x10000) / 0x400).toUInt16, 0xdc00 + ((c.val - 0x10000) % 0x400).toUInt16]

/-- `str::encode_utf16`. -/
def encode (text : List Char) : List UInt16 := text.flatMap units

/-- `String::from_utf16_lossy`: half a pair is U+FFFD. -/
def decodeLossy (us : List UInt16) : List Char :=
  (codePoints us).map fun cp => if h : cp.isValidChar then ⟨cp, h⟩ else '\uFFFD'

theorem not_high_of_low {c : UInt16} (h : isLowSurrogate c = true) : isHighSurrogate c = false := by
  cases hhigh : isHighSurrogate c with
  | false => rfl
  | true => rw [not_low_of_high hhigh] at h; cases h

/-- A character is one unit that is no half of a pair, or a pair. -/
theorem units_cases (c : Char) :
    (∃ u, units c = [u] ∧ u.toUInt32 = c.val ∧ isHighSurrogate u = false) ∨
      ∃ high low, units c = [high, low] ∧ isHighSurrogate high = true ∧ isLowSurrogate low = true ∧
        toCodePoint high low = c.val := by
  have hvalid : c.val.toNat < 0xd800 ∨ (0xdfff < c.val.toNat ∧ c.val.toNat < 0x110000) := c.valid
  unfold units
  split
  · rename_i hlt
    simp only [UInt32.lt_iff_toNat_lt, UInt32.reduceToNat] at hlt
    refine Or.inl ⟨_, rfl, ?_, ?_⟩
    · rw [← UInt32.toNat_inj, UInt16.toNat_toUInt32, UInt32.toNat_toUInt16]
      omega
    · simp only [isHighSurrogate, Bool.and_eq_false_iff, decide_eq_false_iff_not, UInt16.le_iff_toNat_le,
        UInt32.toNat_toUInt16, UInt16.reduceToNat]
      omega
  · rename_i hge
    simp only [UInt32.lt_iff_toNat_lt, UInt32.reduceToNat] at hge
    have hsub : (c.val - 0x10000).toNat = c.val.toNat - 0x10000 := by
      refine UInt32.toNat_sub_of_le _ _ ?_
      simp only [UInt32.le_iff_toNat_le, UInt32.reduceToNat]
      omega
    have hhigh : (0xd800 + ((c.val - 0x10000) / 0x400).toUInt16 : UInt16).toNat = 0xd800 + (c.val.toNat - 0x10000) / 0x400 := by
      simp only [UInt16.toNat_add, UInt32.toNat_toUInt16, UInt32.toNat_div, hsub, UInt32.reduceToNat, UInt16.reduceToNat]
      omega
    have hlow : (0xdc00 + ((c.val - 0x10000) % 0x400).toUInt16 : UInt16).toNat = 0xdc00 + (c.val.toNat - 0x10000) % 0x400 := by
      simp only [UInt16.toNat_add, UInt32.toNat_toUInt16, UInt32.toNat_mod, hsub, UInt32.reduceToNat, UInt16.reduceToNat]
      omega
    refine Or.inr ⟨_, _, rfl, ?_, ?_, ?_⟩
    · simp only [isHighSurrogate, Bool.and_eq_true, decide_eq_true_eq, UInt16.le_iff_toNat_le, hhigh, UInt16.reduceToNat]
      omega
    · simp only [isLowSurrogate, Bool.and_eq_true, decide_eq_true_eq, UInt16.le_iff_toNat_le, hlow, UInt16.reduceToNat]
      omega
    · rw [← UInt32.toNat_inj]
      simp only [toCodePoint, UInt32.toNat_add, UInt32.toNat_mul, UInt32.toNat_sub, UInt16.toNat_toUInt32, hhigh, hlow,
        UInt32.reduceToNat]
      omega

theorem codePoints_encode (text : List Char) : codePoints (encode text) = text.map Char.val := by
  induction text with
  | nil => rfl
  | cons c text ih =>
    have hunits : codePoints (units c ++ encode text) = codePoints (units c) ++ codePoints (encode text) := by
      apply codePoints_append
      apply between_of_not_high
      rcases units_cases c with ⟨u, hu, -, hnot⟩ | ⟨high, low, hu, -, hlow, -⟩
      · rw [hu]
        rintro _ ⟨⟩
        exact hnot
      · rw [hu]
        rintro _ ⟨⟩
        exact not_high_of_low hlow
    have hone : codePoints (units c) = [c.val] := by
      rcases units_cases c with ⟨u, hu, hval, -⟩ | ⟨high, low, hu, hhigh, hlow, hval⟩
      · rw [hu, codePoints, hval]
      · rw [hu, codePoints, if_pos (by simp [hhigh, hlow]), hval, codePoints]
    rw [encode, List.flatMap_cons]
    exact hunits.trans (by rw [hone, ih]; rfl)

/-- A text comes back from its units. -/
theorem decodeLossy_encode (text : List Char) : decodeLossy (encode text) = text := by
  rw [decodeLossy, codePoints_encode, List.map_map]
  refine (List.map_congr_left fun c _ => ?_).trans (List.map_id text)
  show (if h : c.val.isValidChar then (⟨c.val, h⟩ : Char) else '\uFFFD') = c
  rw [dif_pos c.valid]

/-- No unit of another character is zero. -/
theorem zero_not_mem_encode {text : List Char} (h : '\x00' ∉ text) : 0 ∉ encode text := by
  intro hzero
  obtain ⟨c, hc, hmem⟩ := List.mem_flatMap.mp hzero
  rcases units_cases c with ⟨u, hu, hval, -⟩ | ⟨high, low, hu, hhigh, hlow, -⟩
  · rw [hu, List.mem_singleton] at hmem
    subst hmem
    have hc0 : c = '\x00' := Char.ext hval.symm
    exact h (hc0 ▸ hc)
  · rw [hu, List.mem_cons, List.mem_singleton] at hmem
    rcases hmem with rfl | rfl
    · exact absurd hhigh (by decide)
    · exact absurd hlow (by decide)

end Vento.Lib.Utf16
