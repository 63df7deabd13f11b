import Vento.Lib.Str
/-!
# Lower case and the rest of the text

What lower-casing leaves alone. A character that has no case stays where it is, and cuts the text
in two as far as case goes, so trimming and splitting at such characters commute with it.

`Unicode.Documented` is what is used of the tables: ASCII is as it is known to be, what is in
lower case stays, nothing outside ASCII becomes an ASCII character other than a letter, and
white space has no case.
-/

namespace Vento.Lib

open Str

namespace Unicode

structure Documented (u : Unicode) : Prop where
  ascii : ∀ c, c.toNat < 128 → u.lower c = [c.toLower] ∧ u.cased c = c.isAlpha
  lower_ne_nil : ∀ c, u.lower c ≠ []
  lower_lower : ∀ c, ∀ d ∈ u.lower c, u.lower d = [d] ∧ d ≠ 'Σ'
  lower_sigmas : u.lower 'σ' = ['σ'] ∧ u.lower 'ς' = ['ς']
  letter : ∀ c, 128 ≤ c.toNat → ∀ d ∈ u.lower c, d.toNat < 128 → d.isAlpha = true
  white : ∀ c, isWhitespace c = true → u.lower c = [c] ∧ u.cased c = false
  not_white : ∀ c, isWhitespace c = false → ∀ d ∈ u.lower c, isWhitespace d = false
  at_not_ignorable : u.caseIgnorable '@' = false

variable {u : Unicode}

/-- A character without case. -/
structure Neutral (u : Unicode) (c : Char) : Prop where
  cased : u.cased c = false
  lower : u.lower c = [c]
  not_sigma : c ≠ 'Σ'

/-! ## The letters around -/

theorem caseIgnorableThenCased_append {s t : Str} (h : u.caseIgnorableThenCased t = false) :
    u.caseIgnorableThenCased (s ++ t) = u.caseIgnorableThenCased s := by
  unfold caseIgnorableThenCased at *
  rw [List.dropWhile_append]
  cases s.dropWhile u.caseIgnorable with
  | nil => exact h
  | cons c l => rfl

theorem caseIgnorableThenCased_neutral {s : Str} (h : ∀ c ∈ s, Neutral u c) : u.caseIgnorableThenCased s = false := by
  unfold caseIgnorableThenCased
  split
  · next c l hd =>
    have hmem : c ∈ s.dropWhile u.caseIgnorable := by rw [hd]; exact List.mem_cons_self
    exact (h c ((List.dropWhile_sublist _).subset hmem)).cased
  · rfl

/-- What comes before matters to a sigma only if it ends in a letter. -/
theorem lowerFrom_of_before {before : Str} (h : u.caseIgnorableThenCased before = false) (l s : Str) :
    u.lowerFrom (l ++ before) s = u.lowerFrom l s := by
  induction s generalizing l with
  | nil => rfl
  | cons c s ih =>
    rw [lowerFrom, lowerFrom, caseIgnorableThenCased_append h, ← List.cons_append, ih]

theorem lowerFrom_append (before s : Str) {t : Str} (h : u.caseIgnorableThenCased t = false) :
    u.lowerFrom before (s ++ t) = u.lowerFrom before s ++ u.lowerFrom (s.reverse ++ before) t := by
  induction s generalizing before with
  | nil => rfl
  | cons c s ih =>
    rw [List.cons_append, lowerFrom, lowerFrom, caseIgnorableThenCased_append h, ih, List.append_assoc,
      List.reverse_cons, List.append_assoc, List.singleton_append]

theorem lowerFrom_neutral {s : Str} (h : ∀ c ∈ s, Neutral u c) (before : Str) : u.lowerFrom before s = s := by
  induction s generalizing before with
  | nil => rfl
  | cons c s ih =>
    rw [List.forall_mem_cons] at h
    rw [lowerFrom, if_neg h.1.not_sigma, h.1.lower, ih h.2]
    rfl

theorem toLowercase_append_neutral (s : Str) {t : Str} (h : ∀ c ∈ t, Neutral u c) :
    u.toLowercase (s ++ t) = u.toLowercase s ++ t := by
  rw [toLowercase, lowerFrom_append _ _ (caseIgnorableThenCased_neutral h), lowerFrom_neutral h]
  rfl

theorem toLowercase_neutral_append {w : Str} (h : ∀ c ∈ w, Neutral u c) (s : Str) :
    u.toLowercase (w ++ s) = w ++ u.toLowercase s := by
  have hgo : ∀ before : Str, (∀ c ∈ before, Neutral u c) → u.lowerFrom before (w ++ s) = w ++ u.toLowercase s := by
    induction w with
    | nil =>
      intro before hb
      exact lowerFrom_of_before (caseIgnorableThenCased_neutral hb) [] s
    | cons c w ih =>
      rw [List.forall_mem_cons] at h
      intro before hb
      rw [List.cons_append, lowerFrom, if_neg h.1.not_sigma, h.1.lower, ih h.2 _ (List.forall_mem_cons.2 ⟨h.1, hb⟩)]
      rfl
  exact hgo [] fun c hc => absurd hc List.not_mem_nil

/-- A character that has no case and is not skipped over parts the text. -/
theorem toLowercase_append_cons {x : Char} (h : Neutral u x) (hx : u.caseIgnorable x = false) (s t : Str) :
    u.toLowercase (s ++ x :: t) = u.toLowercase s ++ x :: u.toLowercase t := by
  have hcons : ∀ l : Str, u.caseIgnorableThenCased (x :: l) = false := by
    intro l
    simp [caseIgnorableThenCased, hx, h.cased]
  have ht := lowerFrom_of_before (hcons (s.reverse ++ [])) [] t
  rw [List.nil_append] at ht
  rw [toLowercase, lowerFrom_append _ _ (hcons t), lowerFrom, if_neg h.not_sigma, h.lower, ht]
  rfl

/-! ## Character by character -/

theorem mem_lowerFrom {before s : Str} {d : Char} (h : d ∈ u.lowerFrom before s) :
    ∃ c ∈ s, (c = 'Σ' ∧ (d = 'σ' ∨ d = 'ς')) ∨ (c ≠ 'Σ' ∧ d ∈ u.lower c) := by
  induction s generalizing before with
  | nil => cases h
  | cons c s ih =>
    rw [lowerFrom, List.mem_append] at h
    rcases h with h | h
    · refine ⟨c, List.mem_cons_self, ?_⟩
      split at h
      · next hc =>
        refine .inl ⟨hc, ?_⟩
        rw [List.mem_singleton] at h
        split at h
        · exact .inr h
        · exact .inl h
      · next hc => exact .inr ⟨hc, h⟩
    · obtain ⟨c', hc', hd⟩ := ih h
      exact ⟨c', List.mem_cons_of_mem _ hc', hd⟩

theorem lowerFrom_of_stable {s : Str} (h : ∀ d ∈ s, u.lower d = [d] ∧ d ≠ 'Σ') (before : Str) : u.lowerFrom before s = s := by
  induction s generalizing before with
  | nil => rfl
  | cons c s ih =>
    rw [List.forall_mem_cons] at h
    rw [lowerFrom, if_neg h.1.2, h.1.1, ih h.2]
    rfl

namespace Documented

theorem toLowercase_toLowercase (hu : u.Documented) (s : Str) : u.toLowercase (u.toLowercase s) = u.toLowercase s := by
  refine lowerFrom_of_stable (fun d hd => ?_) []
  obtain ⟨c, -, ⟨-, rfl | rfl⟩ | ⟨-, hd⟩⟩ := mem_lowerFrom hd
  · exact ⟨hu.lower_sigmas.1, by decide⟩
  · exact ⟨hu.lower_sigmas.2, by decide⟩
  · exact hu.lower_lower c d hd

theorem neutral_white (hu : u.Documented) {c : Char} (h : isWhitespace c = true) : Neutral u c :=
  ⟨(hu.white c h).2, (hu.white c h).1, by rintro rfl; cases h⟩

theorem neutral_ascii (hu : u.Documented) {c : Char} (h : c.toNat < 128) (ha : c.isAlpha = false) : Neutral u c where
  cased := (hu.ascii c h).2.trans ha
  lower := by
    have hlower : c.toLower = c := by
      have hupper : c.isUpper = false := (Bool.or_eq_false_iff.1 ha).1
      exact dif_neg (of_decide_eq_false hupper)
    rw [(hu.ascii c h).1, hlower]
  not_sigma := by
    rintro rfl
    exact absurd h (by decide)

end Documented

/-- Characters without case that lower-casing makes of no other. -/
structure Apart (u : Unicode) (p : Char → Bool) : Prop where
  neutral : ∀ c, p c = true → Neutral u c
  kept : ∀ c, p c = false → ∀ d ∈ u.lower c, p d = false
  sigmas : p 'σ' = false ∧ p 'ς' = false

namespace Apart

variable {p : Char → Bool}

theorem lower_head (hp : Apart u p) (hne : ∀ c, u.lower c ≠ []) {before s : Str} (hs : ∀ c ∈ s.head?, p c = false) :
    ∀ d ∈ (u.lowerFrom before s).head?, p d = false := by
  cases s with
  | nil => exact fun d hd => hs d hd
  | cons c s =>
    intro d hd
    rw [lowerFrom] at hd
    split at hd
    · cases hd
      split
      · exact hp.sigmas.2
      · exact hp.sigmas.1
    · rw [List.head?_append_of_ne_nil _ (hne c)] at hd
      exact hp.kept c (hs c rfl) d (List.mem_of_mem_head? hd)

theorem lower_last (hp : Apart u p) (hne : ∀ c, u.lower c ≠ []) {s : Str} (hs : ∀ c ∈ s.getLast?, p c = false)
    (before : Str) : ∀ d ∈ (u.lowerFrom before s).getLast?, p d = false := by
  induction s generalizing before with
  | nil => exact fun d hd => hs d hd
  | cons c s ih =>
    intro d hd
    rw [lowerFrom] at hd
    cases s with
    | nil =>
      rw [lowerFrom, List.append_nil] at hd
      split at hd
      · cases hd
        split
        · exact hp.sigmas.2
        · exact hp.sigmas.1
      · exact hp.kept c (hs c rfl) d (List.mem_of_getLast? hd)
    | cons c' s =>
      have hne' : u.lowerFrom (c :: before) (c' :: s) ≠ [] := by
        rw [lowerFrom]
        split
        · exact List.cons_ne_nil _ _
        · exact List.append_ne_nil_of_left_ne_nil (hne c') _
      rw [List.getLast?_append_of_ne_nil _ hne'] at hd
      exact ih (by simpa using hs) _ d hd

theorem bare (hp : Apart u p) (hne : ∀ c, u.lower c ≠ []) {s : Str} (h : Bare p s) : Bare p (u.toLowercase s) :=
  ⟨hp.lower_head hne h.head, hp.lower_last hne h.last []⟩

/-- Trimming commutes with lower-casing. -/
theorem trimMatches_toLowercase (hp : Apart u p) (hne : ∀ c, u.lower c ≠ []) (s : Str) :
    trimMatches p (u.toLowercase s) = u.toLowercase (trimMatches p s) := by
  obtain ⟨w, w', hs, hw, hw'⟩ := exists_trimMatches p s
  have hlower : u.toLowercase s = w ++ (u.toLowercase (trimMatches p s) ++ w') := by
    conv_lhs => rw [hs]
    rw [toLowercase_neutral_append fun c hc => hp.neutral c (hw c hc),
      toLowercase_append_neutral _ fun c hc => hp.neutral c (hw' c hc)]
  rw [hlower, trimMatches_eq (hp.bare hne (bare_trimMatches p s)) hw hw']

end Apart

theorem isAlpha_toLower {c : Char} (h : c.toNat < 128) : c.isAlpha = true → c.toLower.isAlpha = true :=
  forall_toNat_lt (P := fun c => c.isAlpha = true → c.toLower.isAlpha = true) (by decide) c h

namespace Documented

/-- A kind of ASCII characters without letters is apart. -/
theorem apart_ascii (hu : u.Documented) {p : Char → Bool} (h : ∀ c, p c = true → c.toNat < 128 ∧ c.isAlpha = false) :
    Apart u p where
  neutral c hc := hu.neutral_ascii (h c hc).1 (h c hc).2
  kept c hc d hd := by
    rw [Bool.eq_false_iff]
    intro hpd
    obtain ⟨hlt, halpha⟩ := h d hpd
    by_cases hc' : c.toNat < 128
    · rw [(hu.ascii c hc').1, List.mem_singleton] at hd
      cases hca : c.isAlpha with
      | false =>
        have hlower := (hu.neutral_ascii hc' hca).lower
        rw [(hu.ascii c hc').1] at hlower
        rw [hd, List.singleton_inj.1 hlower, hc] at hpd
        cases hpd
      | true =>
        rw [hd, isAlpha_toLower hc' hca] at halpha
        cases halpha
    · rw [hu.letter c (Nat.le_of_not_lt hc') d hd hlt] at halpha
      cases halpha
  sigmas := by
    constructor
    · rw [Bool.eq_false_iff]
      exact fun hp => absurd (h _ hp).1 (by decide)
    · rw [Bool.eq_false_iff]
      exact fun hp => absurd (h _ hp).1 (by decide)

theorem apart_white (hu : u.Documented) : Apart u isWhitespace :=
  ⟨fun _ hc => hu.neutral_white hc, hu.not_white, by decide⟩

/-- One ASCII character that is not a letter. -/
theorem apart_char (hu : u.Documented) {x : Char} (hx : x.toNat < 128) (ha : x.isAlpha = false) : Apart u (· == x) :=
  hu.apart_ascii fun c hc => by
    rw [beq_iff_eq] at hc
    subst hc
    exact ⟨hx, ha⟩

theorem toLowercase_ne_nil (hu : u.Documented) {s : Str} (h : s ≠ []) : u.toLowercase s ≠ [] := by
  cases s with
  | nil => exact absurd rfl h
  | cons c s =>
    rw [toLowercase, lowerFrom]
    split
    · exact List.cons_ne_nil _ _
    · exact List.append_ne_nil_of_left_ne_nil (hu.lower_ne_nil c) _

theorem neutral_digit (hu : u.Documented) {c : Char} (h : c.isDigit = true) : Neutral u c := by
  simp only [Char.isDigit, ge_iff_le, Bool.and_eq_true, decide_eq_true_eq, UInt32.le_iff_toNat_le] at h
  have hlo : 48 ≤ c.toNat := h.1
  have hhi : c.toNat ≤ 57 := h.2
  have ha : c.isAlpha = false :=
    forall_toNat_lt (P := fun c => 48 ≤ c.toNat → c.isAlpha = false) (by decide) c (show c.toNat < 58 by omega) hlo
  exact hu.neutral_ascii (by omega) ha

/-- A text that does not begin with `x` does not in lower case. -/
theorem head_toLowercase (hu : u.Documented) {x : Char} (hx : x.toNat < 128) (ha : x.isAlpha = false) {s : Str}
    (h : s.head? ≠ some x) : (u.toLowercase s).head? ≠ some x := by
  intro hhead
  have hs : ∀ c ∈ s.head?, (c == x) = false := by
    intro c hc
    rw [beq_eq_false_iff_ne]
    rintro rfl
    exact h hc
  have hbare : (x == x) = false := (hu.apart_char hx ha).lower_head hu.lower_ne_nil hs x hhead
  rw [BEq.rfl] at hbare
  cases hbare

/-- A character without case is there as often as before. -/
theorem count_toLowercase (hu : u.Documented) {x : Char} (hx : x.toNat < 128) (ha : x.isAlpha = false) (s : Str) :
    (u.toLowercase s).count x = s.count x := by
  have happart := hu.apart_char hx ha
  have hneutral := hu.neutral_ascii hx ha
  have hgo : ∀ before : Str, (u.lowerFrom before s).count x = s.count x := by
    induction s with
    | nil => exact fun _ => rfl
    | cons c s ih =>
      intro before
      rw [lowerFrom, List.count_append, ih, List.count_cons, Nat.add_comm]
      congr 1
      by_cases hc : c = x
      · rw [if_neg (hc ▸ hneutral.not_sigma), hc, hneutral.lower]
        simp
      · rw [if_neg (show ¬(c == x) = true by simpa using hc), List.count_eq_zero]
        intro hmem
        split at hmem
        · rw [List.mem_singleton] at hmem
          split at hmem
          · exact absurd happart.sigmas.2 (by simp [hmem])
          · exact absurd happart.sigmas.1 (by simp [hmem])
        · have hkept := happart.kept c (by simpa using hc) x hmem
          simp at hkept
  exact hgo []

theorem mem_toLowercase (hu : u.Documented) {x : Char} (hx : x.toNat < 128) (ha : x.isAlpha = false) (s : Str) :
    x ∈ u.toLowercase s ↔ x ∈ s := by
  rw [← List.count_pos_iff, hu.count_toLowercase hx ha, List.count_pos_iff]

end Documented

/-! ## Tables that are as documented -/

/-- ASCII and the sigmas, and no other letters. -/
def asciiSigma : Unicode := { ascii with lower := fun c => if c = 'Σ' then ['σ'] else [c.toLower] }

theorem toLower_of_not_ascii {c : Char} (h : ¬c.toNat < 128) : c.toLower = c := by
  refine dif_neg ?_
  rintro ⟨-, hhi⟩
  rw [UInt32.le_iff_toNat_le] at hhi
  exact h (Nat.lt_of_le_of_lt hhi (by decide))

theorem isAlpha_of_not_ascii {c : Char} (h : ¬c.toNat < 128) : c.isAlpha = false := by
  refine Bool.or_eq_false_iff.2 ⟨decide_eq_false fun hc => ?_, Bool.and_eq_false_iff.2 (.inr (decide_eq_false fun hc => ?_))⟩
  · exact h (Nat.lt_of_le_of_lt (UInt32.le_iff_toNat_le.1 hc.2) (by decide))
  · exact h (Nat.lt_of_le_of_lt (UInt32.le_iff_toNat_le.1 hc) (by decide))

theorem toLower_toLower (c : Char) : c.toLower.toLower = c.toLower := by
  by_cases h : c.toNat < 128
  · exact forall_toNat_lt (P := fun c => c.toLower.toLower = c.toLower) (by decide) c h
  · rw [toLower_of_not_ascii h, toLower_of_not_ascii h]

theorem toLower_ne_sigma {c : Char} (h : c ≠ 'Σ') : c.toLower ≠ 'Σ' := by
  by_cases ha : c.toNat < 128
  · exact forall_toNat_lt (P := fun c => c.toLower ≠ 'Σ') (by decide) c ha
  · rwa [toLower_of_not_ascii ha]

theorem isWhitespace_toLower (c : Char) : isWhitespace c.toLower = isWhitespace c := by
  by_cases h : c.toNat < 128
  · exact forall_toNat_lt (P := fun c => isWhitespace c.toLower = isWhitespace c) (by decide) c h
  · rw [toLower_of_not_ascii h]

theorem documented_asciiSigma : asciiSigma.Documented where
  ascii c h := by
    refine ⟨if_neg ?_, rfl⟩
    rintro rfl
    exact absurd h (by decide)
  lower_ne_nil c := by
    rw [asciiSigma]
    dsimp only
    split <;> exact List.cons_ne_nil _ _
  lower_lower c d hd := by
    simp only [asciiSigma] at hd ⊢
    split at hd
    · rw [List.mem_singleton.1 hd]
      decide
    · next hc =>
      rw [List.mem_singleton.1 hd, if_neg (toLower_ne_sigma hc), toLower_toLower]
      exact ⟨rfl, toLower_ne_sigma hc⟩
  lower_sigmas := by decide
  letter c h d hd hlt := by
    simp only [asciiSigma] at hd
    split at hd
    · rw [List.mem_singleton.1 hd] at hlt
      exact absurd hlt (by decide)
    · rw [List.mem_singleton.1 hd, toLower_of_not_ascii (by omega)] at hlt
      omega
  white c h := by
    have hsigma : c ≠ 'Σ' := by
      rintro rfl
      cases h
    by_cases ha : c.toNat < 128
    · have hc : c.toLower = c ∧ c.isAlpha = false :=
        forall_toNat_lt (P := fun c => isWhitespace c = true → c.toLower = c ∧ c.isAlpha = false) (by decide) c ha h
      refine ⟨?_, hc.2⟩
      rw [asciiSigma]
      dsimp only
      rw [if_neg hsigma, hc.1]
    · refine ⟨?_, ?_⟩
      · rw [asciiSigma]
        dsimp only
        rw [if_neg hsigma, toLower_of_not_ascii ha]
      · exact isAlpha_of_not_ascii ha
  not_white c h d hd := by
    simp only [asciiSigma] at hd
    split at hd
    · rw [List.mem_singleton.1 hd]
      decide
    · rw [List.mem_singleton.1 hd, isWhitespace_toLower, h]
  at_not_ignorable := by decide

end Unicode

end Vento.Lib
