import Mathlib.Data.List.Perm.Subperm
import Mathlib.Data.List.TakeDrop
import Mathlib.Data.Nat.Find
/-!
# Numbers for what is kept and what is new

A list of wanted numbers against a list of old ones: the first mention of an old number keeps it, and anything else gets
the lowest number that is neither old nor given already. `assign` goes through the list once; what it has seen and what
it has given are its state. No number is given twice (`nodup_assign`).
-/

namespace Vento.Lib.Assign

theorem exists_notMem (taken : List Nat) : ∃ n, n ∉ taken := by
  by_contra h
  have hall : List.range (taken.length + 1) ⊆ taken := fun n _ => by_contra fun hn => h ⟨n, hn⟩
  have hle := (List.nodup_range.subperm hall).length_le
  rw [List.length_range] at hle
  omega

/-- The lowest number that is not taken. -/
def lowest (taken : List Nat) : Nat := Nat.find (exists_notMem taken)

theorem lowest_notMem (taken : List Nat) : lowest taken ∉ taken := Nat.find_spec (exists_notMem taken)

theorem mem_of_lt_lowest {taken : List Nat} {n : Nat} (h : n < lowest taken) : n ∈ taken :=
  by_contra fun hn => Nat.find_min (exists_notMem taken) h hn

theorem lowest_le_length (taken : List Nat) : lowest taken ≤ taken.length := by
  have hall : List.range (lowest taken) ⊆ taken := fun n hn => mem_of_lt_lowest (List.mem_range.1 hn)
  have hle := (List.nodup_range.subperm hall).length_le
  rwa [List.length_range] at hle

/-- The number that `w` gets after those of `seen` got those of `done`. -/
def pick (old seen done : List Nat) (w : Nat) : Nat := if w ∈ old ∧ w ∉ seen then w else lowest (old ++ done)

def assign (old : List Nat) : List Nat → List Nat → List Nat → List Nat
  | _, _, [] => []
  | seen, done, w :: ws => pick old seen done w :: assign old (seen ++ [w]) (done ++ [pick old seen done w]) ws

/-- The old numbers that were given are those that were seen. -/
def Matched (old seen done : List Nat) : Prop := ∀ n ∈ old, n ∈ done ↔ n ∈ seen

variable {old seen done : List Nat}

theorem matched_nil (old : List Nat) : Matched old [] [] := fun _ _ => Iff.rfl

theorem lowest_notMem_old (old done : List Nat) : lowest (old ++ done) ∉ old := fun h =>
  lowest_notMem (old ++ done) (List.mem_append_left done h)

theorem Matched.step (h : Matched old seen done) (w : Nat) : Matched old (seen ++ [w]) (done ++ [pick old seen done w]) := by
  intro n hn
  rw [List.mem_append, List.mem_append, List.mem_singleton, List.mem_singleton, h n hn]
  unfold pick
  split
  · rfl
  · next hnew =>
    have hne : n ≠ lowest (old ++ done) := fun heq => lowest_notMem_old old done (heq ▸ hn)
    constructor
    · exact fun hmem => .inl (hmem.resolve_right hne)
    · rintro (hmem | rfl)
      · exact .inl hmem
      · exact .inl (by_contra fun hseen => hnew ⟨hn, hseen⟩)

theorem pick_notMem (h : Matched old seen done) (w : Nat) : pick old seen done w ∉ done := by
  unfold pick
  split
  · next hkept => exact fun hmem => hkept.2 ((h w hkept.1).1 hmem)
  · exact fun hmem => lowest_notMem (old ++ done) (List.mem_append_right old hmem)

@[simp] theorem length_assign (old seen done ws : List Nat) : (assign old seen done ws).length = ws.length := by
  induction ws generalizing seen done with
  | nil => rfl
  | cons w ws ih => rw [assign, List.length_cons, ih, List.length_cons]

theorem nodup_assign (h : Matched old seen done) (hdone : done.Nodup) (ws : List Nat) : (done ++ assign old seen done ws).Nodup := by
  induction ws generalizing seen done with
  | nil => rwa [assign, List.append_nil]
  | cons w ws ih =>
    have hnodup : (done ++ [pick old seen done w]).Nodup := by
      rw [List.nodup_append]
      refine ⟨hdone, List.pairwise_singleton _ _, fun a ha b hb => ?_⟩
      rw [List.mem_singleton.1 hb]
      rintro rfl
      exact pick_notMem h w ha
    have hrest := ih (h.step w) hnodup
    rwa [List.append_assoc] at hrest

/-- What each one is given, by what is before it. -/
theorem assign_getElem? (old seen done ws : List Nat) (i : Nat) :
    (assign old seen done ws)[i]? =
      ws[i]?.map (pick old (seen ++ ws.take i) (done ++ (assign old seen done ws).take i)) := by
  induction ws generalizing seen done i with
  | nil => rfl
  | cons w ws ih =>
    cases i with
    | zero => simp [assign]
    | succ i =>
      rw [assign, List.getElem?_cons_succ, List.getElem?_cons_succ, ih, List.take_succ_cons, List.take_succ_cons, List.append_assoc,
        List.append_assoc]
      rfl

theorem pick_le {w : Nat} (h : ¬(w ∈ old ∧ w ∉ seen)) : pick old seen done w ≤ old.length + done.length := by
  rw [pick, if_neg h, ← List.length_append]
  exact lowest_le_length _

/-! ## A number to start from -/

/-- Every number below `next` is taken, and what is taken from there on is old: the lowest free number is the first from
`next` on that is not old. -/
structure Starts (old done : List Nat) (next : Nat) : Prop where
  below : ∀ n, n < next → n ∈ old ++ done
  above : ∀ n ∈ done, next ≤ n → n ∈ old

theorem starts_zero (old : List Nat) : Starts old [] 0 := ⟨fun _ hn => absurd hn (Nat.not_lt_zero _), fun _ hn => nomatch hn⟩

theorem Starts.keep {next w : Nat} (h : Starts old done next) (hw : w ∈ old) : Starts old (done ++ [w]) next where
  below n hn := by
    rw [← List.append_assoc]
    exact List.mem_append_left _ (h.below n hn)
  above n hn hle := by
    rcases List.mem_append.1 hn with hn | hn
    · exact h.above n hn hle
    · exact List.mem_singleton.1 hn ▸ hw

theorem Starts.give {next : Nat} (h : Starts old done next) : Starts old (done ++ [lowest (old ++ done)]) (lowest (old ++ done) + 1) where
  below n hn := by
    rw [← List.append_assoc]
    rcases Nat.lt_succ_iff_lt_or_eq.1 hn with hn | rfl
    · exact List.mem_append_left _ (mem_of_lt_lowest hn)
    · exact List.mem_append_right _ (List.mem_singleton.2 rfl)
  above n hn hle := by
    rcases List.mem_append.1 hn with hmem | hmem
    · refine h.above n hmem (Nat.le_trans ?_ (Nat.le_of_lt hle))
      exact Nat.le_of_not_lt fun hlt => lowest_notMem _ (h.below _ hlt)
    · exact absurd (List.mem_singleton.1 hmem ▸ hle) (Nat.not_succ_le_self _)

theorem Starts.le {next : Nat} (h : Starts old done next) : next ≤ lowest (old ++ done) :=
  Nat.le_of_not_lt fun hlt => lowest_notMem _ (h.below _ hlt)

/-- From `next` up to the lowest free number, all are old. -/
theorem Starts.mem_old {next n : Nat} (h : Starts old done next) (hle : next ≤ n) (hlt : n < lowest (old ++ done)) : n ∈ old :=
  (List.mem_append.1 (mem_of_lt_lowest hlt)).elim id fun hn => h.above n hn hle

/-! ## What is kept -/

/-- Each number, and whether it is kept. -/
def keeps (old : List Nat) : List Nat → List Nat → List (Nat × Bool)
  | _, [] => []
  | seen, w :: ws => (w, decide (w ∈ old ∧ w ∉ seen)) :: keeps old (seen ++ [w]) ws

/-- The same, told by what is kept before: a number is new again once one of it is kept. -/
def marks (old : List Nat) : List (Nat × Bool) → List Nat → List (Nat × Bool)
  | seen, [] => seen
  | seen, w :: ws => marks old (seen ++ [(w, !(seen.any fun p => p.2 && p.1 == w) && decide (w ∈ old))]) ws

theorem marks_eq {seen : List (Nat × Bool)} (h : ∀ n ∈ old, (seen.any fun p => p.2 && p.1 == n) = true ↔ n ∈ seen.map Prod.fst)
    (ws : List Nat) : marks old seen ws = seen ++ keeps old (seen.map Prod.fst) ws := by
  induction ws generalizing seen with
  | nil => rw [marks, keeps, List.append_nil]
  | cons w ws ih =>
    have hmark : (!(seen.any fun p => p.2 && p.1 == w) && decide (w ∈ old)) = decide (w ∈ old ∧ w ∉ seen.map Prod.fst) := by
      by_cases hw : w ∈ old
      · have hiff := h w hw
        cases hany : seen.any fun p => p.2 && p.1 == w with
        | true => simp [hw, hiff.1 hany]
        | false =>
          have hnot : w ∉ seen.map Prod.fst := fun hmem => by
            rw [hiff.2 hmem] at hany
            cases hany
          simp only [hw, hnot]
          rfl
      · simp [hw]
    rw [marks, hmark, ih, List.map_append, keeps, List.append_assoc]
    · rfl
    · intro n hn
      rw [List.any_append, Bool.or_eq_true, h n hn, List.map_append, List.mem_append]
      constructor
      · rintro (hmem | hlast)
        · exact .inl hmem
        · exact .inr (by simp at hlast; simp [hlast.2])
      · rintro (hmem | hlast)
        · exact .inl hmem
        · obtain rfl : n = w := by simpa using hlast
          by_cases hseen : n ∈ seen.map Prod.fst
          · exact .inl hseen
          · exact .inr (by simp only [List.any_cons, List.any_nil, hn, hseen]; simp)

end Vento.Lib.Assign
