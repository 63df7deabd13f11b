import Mathlib.Data.List.Basic
import Mathlib.Tactic.Common
/-!
# Runs of a guarded step function

A component that several threads share is given as a step function on its
state, one atomic action at a time; `none` means that the action cannot happen
there (a thread that is blocked). A run is a list of actions, so a theorem
about every run holds for every interleaving of the threads' actions.

`Meets ok s as` says that every action of the run `as` from `s` is taken in a
state where `ok` allows it. `trace_inv` is the induction rule: a property
of the actions so far and the state, kept by every allowed action, holds after
every run that meets `ok`.
-/

namespace Vento.Lib

variable {σ α : Type} (step : σ → α → Option σ)

/-- The state after the actions `as`, if all of them can happen. -/
def run (s : σ) (as : List α) : Option σ := as.foldlM step s

/-- Every action of the run is taken in a state where `ok` allows it. -/
def Meets (ok : σ → α → Prop) : σ → List α → Prop
  | _, [] => True
  | s, a :: as => ok s a ∧ ∀ s', step s a = some s' → Meets ok s' as

variable {step}

@[simp]
theorem run_nil (s : σ) : run step s [] = some s := rfl

theorem run_cons (s : σ) (a : α) (as : List α) :
    run step s (a :: as) = (step s a).bind (fun s' => run step s' as) := rfl

theorem run_append (s : σ) (as bs : List α) :
    run step s (as ++ bs) = (run step s as).bind (fun s' => run step s' bs) := by
  simp [run, List.foldlM_append]

theorem run_cons_some {s t : σ} {a : α} {as : List α} (h : run step s (a :: as) = some t) :
    ∃ s', step s a = some s' ∧ run step s' as = some t := by
  rw [run_cons] at h
  exact Option.bind_eq_some_iff.1 h

theorem run_append_some {s t : σ} {as bs : List α} (h : run step s (as ++ bs) = some t) :
    ∃ s', run step s as = some s' ∧ run step s' bs = some t := by
  rw [run_append] at h
  exact Option.bind_eq_some_iff.1 h

theorem run_snoc {s s' t : σ} {as : List α} {a : α} (h : run step s as = some s') (ha : step s' a = some t) :
    run step s (as ++ [a]) = some t := by
  simp [run_append, h, run_cons, ha]

theorem run_prefix {s t : σ} {as bs : List α} (hp : as <+: bs) (h : run step s bs = some t) :
    ∃ u, run step s as = some u := by
  obtain ⟨post, rfl⟩ := hp
  obtain ⟨u, hu, -⟩ := run_append_some h
  exact ⟨u, hu⟩

/-- A step function whose every action can happen. -/
theorem run_some (f : σ → α → σ) (s : σ) (as : List α) : run (fun s a => some (f s a)) s as = some (as.foldl f s) := by
  induction as generalizing s with
  | nil => rfl
  | cons a as ih => exact ih (f s a)

/-- Where every action can happen in the states of `I`, every list of actions is a run. -/
theorem run_exists (I : σ → Prop) (hstep : ∀ s a, I s → ∃ s', step s a = some s' ∧ I s') {s : σ} (hs : I s) (as : List α) :
    ∃ t, run step s as = some t := by
  induction as generalizing s with
  | nil => exact ⟨s, rfl⟩
  | cons a as ih =>
    obtain ⟨s', hs', hI⟩ := hstep s a hs
    obtain ⟨t, ht⟩ := ih hI
    exact ⟨t, by rw [run_cons, hs']; exact ht⟩

/-- What a step function does to the states of `I`, seen through a view of them, is
done by another one, so it is after every run. -/
theorem run_map {ρ : Type} {step' : ρ → α → Option ρ} (I : σ → Prop) (f : σ → ρ)
    (hstep : ∀ s a s', I s → step s a = some s' → I s' ∧ step' (f s) a = some (f s')) {s t : σ} {as : List α}
    (hs : I s) (h : run step s as = some t) : run step' (f s) as = some (f t) := by
  induction as generalizing s with
  | nil => cases h; rfl
  | cons a as ih =>
    obtain ⟨u, hu, h⟩ := run_cons_some h
    obtain ⟨hI, hf⟩ := hstep s a u hs hu
    rw [run_cons, hf]
    exact ih hI h

/-- Steps that another step function can follow on actions of its own, whenever `S`
relates the two states, make a run that it can follow. -/
theorem run_simulate {ρ β : Type} {step' : ρ → β → Option ρ} (S : σ → ρ → Prop) (P : α → Prop) (f : α → β)
    (hstep : ∀ s r a s', P a → S s r → step s a = some s' → ∃ r', step' r (f a) = some r' ∧ S s' r') {s t : σ} {r : ρ}
    {as : List α} (hP : ∀ a ∈ as, P a) (hS : S s r) (h : run step s as = some t) :
    ∃ u, run step' r (as.map f) = some u ∧ S t u := by
  induction as generalizing s r with
  | nil => cases h; exact ⟨r, rfl, hS⟩
  | cons a as ih =>
    obtain ⟨s', hs', h⟩ := run_cons_some h
    obtain ⟨r', hr', hS'⟩ := hstep s r a s' (hP a List.mem_cons_self) hS hs'
    obtain ⟨u, hu, hSu⟩ := ih (fun a' ha' => hP a' (List.mem_cons_of_mem a ha')) hS' h
    refine ⟨u, ?_, hSu⟩
    rw [List.map_cons, run_cons, hr']
    exact hu

/-- Where an action of a run of one more stands: it is the last, or it was there
before. -/
theorem snoc_eq_append_cons {as pre post : List α} {a b : α} :
    as ++ [a] = pre ++ b :: post ↔ (as = pre ∧ a = b ∧ post = []) ∨
      ∃ post', as = pre ++ b :: post' ∧ post = post' ++ [a] := by
  constructor
  · intro h
    rcases List.eq_nil_or_concat post with rfl | ⟨post', c, rfl⟩
    · obtain ⟨has, ha⟩ := List.append_inj' h rfl
      exact .inl ⟨has, List.singleton_inj.1 ha, rfl⟩
    · rw [List.concat_eq_append, ← List.cons_append, ← List.append_assoc] at h
      obtain ⟨has, ha⟩ := List.append_inj' h rfl
      rw [List.concat_eq_append, List.singleton_inj.1 ha]
      exact .inr ⟨post', has, rfl⟩
  · rintro (⟨rfl, rfl, rfl⟩ | ⟨post', rfl, rfl⟩)
    · rfl
    · rw [List.append_assoc, List.cons_append]

/-- The last of the actions `as` that set or cleared something set it to `b`.
Whether an action does may depend on those before it. -/
def LastSet {β : Type} (sets : List α → α → β → Prop) (clears : List α → α → Prop) (as : List α) (b : β) : Prop :=
  ∃ pre a post, as = pre ++ a :: post ∧ sets pre a b ∧
    ∀ pre' a' post', post = pre' ++ a' :: post' → ¬clears (pre ++ a :: pre') a'

theorem lastSet_nil {β : Type} {sets : List α → α → β → Prop} {clears : List α → α → Prop} {b : β} :
    ¬LastSet sets clears [] b := by
  rintro ⟨pre, a, post, h, -⟩
  exact List.append_ne_nil_of_right_ne_nil pre (List.cons_ne_nil a post) h.symm

theorem lastSet_snoc {β : Type} {sets : List α → α → β → Prop} {clears : List α → α → Prop} {as : List α} {a : α}
    {b : β} : LastSet sets clears (as ++ [a]) b ↔ sets as a b ∨ (LastSet sets clears as b ∧ ¬clears as a) := by
  constructor
  · rintro ⟨pre, c, post, h, hsets, hpost⟩
    rcases snoc_eq_append_cons.1 h with ⟨rfl, rfl, -⟩ | ⟨post', rfl, rfl⟩
    · exact .inl hsets
    · refine .inr ⟨⟨pre, c, post', rfl, hsets, fun pre' a' post'' h' => ?_⟩, hpost post' a [] rfl⟩
      refine hpost pre' a' (post'' ++ [a]) ?_
      rw [h', List.append_assoc, List.cons_append]
  · rintro (hsets | ⟨⟨pre, c, post, rfl, hsets, hpost⟩, hclears⟩)
    · refine ⟨as, a, [], rfl, hsets, fun pre' a' post' h' => ?_⟩
      exact absurd h'.symm (List.append_ne_nil_of_right_ne_nil pre' (List.cons_ne_nil a' post'))
    · refine ⟨pre, c, post ++ [a], by rw [List.append_assoc, List.cons_append], hsets, fun pre' a' post' h' => ?_⟩
      rcases snoc_eq_append_cons.1 h' with ⟨rfl, rfl, -⟩ | ⟨post'', rfl, -⟩
      · exact hclears
      · exact hpost pre' a' post'' rfl

namespace Meets

variable {ok : σ → α → Prop}

theorem cons_iff_of_none {s : σ} {a : α} {as : List α} (h : step s a = none) :
    ok s a ↔ Meets step ok s (a :: as) := by
  simp [Meets, h]

theorem cons_iff_of_some {s s' : σ} {a : α} {as : List α} (h : step s a = some s') :
    (ok s a ∧ Meets step ok s' as) ↔ Meets step ok s (a :: as) := by
  simp [Meets, h]

instance decidable [∀ s, DecidablePred (ok s)] : ∀ (s : σ) (as : List α), Decidable (Meets step ok s as)
  | _, [] => isTrue trivial
  | s, a :: as =>
    match h : step s a with
    | none => decidable_of_iff _ (cons_iff_of_none h)
    | some s' =>
      have := decidable s' as
      decidable_of_iff _ (cons_iff_of_some h)

theorem and {ok' : σ → α → Prop} {s : σ} {as : List α} (h : Meets step ok s as) (h' : Meets step ok' s as) :
    Meets step (fun s a => ok s a ∧ ok' s a) s as := by
  induction as generalizing s with
  | nil => trivial
  | cons a as ih => exact ⟨⟨h.1, h'.1⟩, fun s' hs => ih (h.2 s' hs) (h'.2 s' hs)⟩

theorem append_left {s : σ} {as bs : List α} (h : Meets step ok s (as ++ bs)) : Meets step ok s as := by
  induction as generalizing s with
  | nil => trivial
  | cons a as ih => exact ⟨h.1, fun s' hs => ih (h.2 s' hs)⟩

theorem append_right {s s' : σ} {as bs : List α} (h : Meets step ok s (as ++ bs)) (hr : run step s as = some s') :
    Meets step ok s' bs := by
  induction as generalizing s with
  | nil => cases hr; exact h
  | cons a as ih =>
    obtain ⟨u, hu, hr⟩ := run_cons_some hr
    exact ih (h.2 u hu) hr

/-- A run meets `ok` if each of its states has a property that no step which `ok` forbids leads to. -/
theorem of_states {P : σ → Prop} (hstep : ∀ s a s', P s → step s a = some s' → P s' → ok s a) {s t : σ} {as : List α}
    (hr : run step s as = some t) (h : ∀ pre post u, as = pre ++ post → run step s pre = some u → P u) :
    Meets step ok s as := by
  induction as generalizing s with
  | nil => trivial
  | cons a as ih =>
    obtain ⟨u, ha, hr'⟩ := run_cons_some hr
    have hs : P s := h [] (a :: as) s rfl rfl
    have hu : P u := h [a] as u rfl (by simp [run_cons, ha])
    refine ⟨hstep s a u hs ha hu, ?_⟩
    intro s' hs'
    cases ha.symm.trans hs'
    refine ih hr' ?_
    intro pre post v heq hv
    exact h (a :: pre) post v (by simp [heq]) (by simpa [run_cons, ha] using hv)

end Meets

/-- A property of the actions so far and the state, kept by every action that
`ok` allows, holds after every run whose actions all meet `ok`. -/
theorem trace_inv {ok : σ → α → Prop} (I : List α → σ → Prop) {s₀ : σ} (h0 : I [] s₀)
    (hstep : ∀ tr s a s', I tr s → ok s a → step s a = some s' → I (tr ++ [a]) s')
    {as : List α} {s : σ} (hm : Meets step ok s₀ as) (hr : run step s₀ as = some s) : I as s := by
  have go : ∀ (as tr : List α) (u : σ), I tr u → Meets step ok u as → run step u as = some s → I (tr ++ as) s := by
    intro as
    induction as with
    | nil =>
      intro tr u hu _ hr
      cases hr
      simpa using hu
    | cons a as ih =>
      intro tr u hu hm hr
      obtain ⟨v, hv, hr⟩ := run_cons_some hr
      simpa using ih (tr ++ [a]) v (hstep tr u a v hu hm.1 hv) (hm.2 v hv) hr
  simpa using go as [] s₀ h0 hm hr

/-- Every run meets the condition that allows everything. -/
theorem meets_true (s : σ) (as : List α) : Meets step (fun _ _ => True) s as := by
  induction as generalizing s with
  | nil => trivial
  | cons a as ih => exact ⟨trivial, fun s' _ => ih s'⟩

/-- A property of the actions so far and the state, kept by every action,
holds after every run. -/
theorem trace_inv_all (I : List α → σ → Prop) {s₀ : σ} (h0 : I [] s₀)
    (hstep : ∀ tr s a s', I tr s → step s a = some s' → I (tr ++ [a]) s')
    {as : List α} {s : σ} (hr : run step s₀ as = some s) : I as s :=
  trace_inv I h0 (fun tr s a s' hi _ => hstep tr s a s' hi) (meets_true s₀ as) hr

/-- What holds of every action of a list, with those before it. -/
theorem forall_split_cons {a : α} {as : List α} {R : List α → α → Prop} :
    (∀ pre b post, a :: as = pre ++ b :: post → R pre b) ↔
      R [] a ∧ ∀ pre b post, as = pre ++ b :: post → R (a :: pre) b := by
  constructor
  · intro h
    exact ⟨h [] a as rfl, fun pre b post heq => h (a :: pre) b post (by rw [heq, List.cons_append])⟩
  · rintro ⟨ha, has⟩ pre b post heq
    cases pre with
    | nil =>
      cases heq
      exact ha
    | cons c pre =>
      cases heq
      exact has pre b post rfl

/-- Every step of a run that meets `ok` is as promised exactly if every action is one that is allowed after those before
it, where an allowed one keeps what the others rest on. -/
theorem steps_iff_of_meets {ok : σ → α → Prop} {Q : List α → α → σ → σ → Prop} {P : List α → α → Prop} (I : List α → σ → Prop)
    {s₀ : σ} (h0 : I [] s₀) (hiff : ∀ tr s a s', I tr s → ok s a → step s a = some s' → (Q tr a s s' ↔ P tr a))
    (hstep : ∀ tr s a s', I tr s → ok s a → step s a = some s' → P tr a → I (tr ++ [a]) s') {as : List α} {t : σ}
    (hm : Meets step ok s₀ as) (hr : run step s₀ as = some t) :
    (∀ pre a post, as = pre ++ a :: post →
      ∀ s s', run step s₀ pre = some s → step s a = some s' → Q pre a s s') ↔
      ∀ pre a post, as = pre ++ a :: post → P pre a := by
  have go : ∀ (as tr : List α) (u : σ), I tr u → Meets step ok u as → run step u as = some t →
      ((∀ pre a post, as = pre ++ a :: post →
        ∀ s s', run step u pre = some s → step s a = some s' → Q (tr ++ pre) a s s') ↔
        ∀ pre a post, as = pre ++ a :: post → P (tr ++ pre) a) := by
    intro as
    induction as with
    | nil =>
      intro tr u _ _ _
      constructor
      · intro _ pre a post heq
        cases pre <;> cases heq
      · intro _ pre a post heq
        cases pre <;> cases heq
    | cons a as ih =>
      intro tr u hu hm hr
      obtain ⟨v, hv, hr⟩ := run_cons_some hr
      have hfirst : (∀ s s', run step u [] = some s → step s a = some s' → Q (tr ++ []) a s s') ↔ P (tr ++ []) a := by
        rw [List.append_nil, ← hiff tr u a v hu hm.1 hv]
        constructor
        · intro h
          exact h u v rfl hv
        · intro h s s' hs hs'
          cases hs
          cases hv.symm.trans hs'
          exact h
      rw [forall_split_cons (R := fun pre a => ∀ s s', run step u pre = some s → step s a = some s' → Q (tr ++ pre) a s s'),
        forall_split_cons (R := fun pre a => P (tr ++ pre) a), hfirst]
      refine and_congr_right fun hP => ?_
      have hrest := ih (tr ++ [a]) v (hstep tr u a v hu hm.1 hv (by rwa [List.append_nil] at hP)) (hm.2 v hv) hr
      simpa [run_cons, hv] using hrest
  simpa using go as [] s₀ h0 hm hr

/-- Every step of a run is as promised exactly if every action is one that is allowed after those before
it, where an allowed one keeps what the others rest on. -/
theorem steps_iff {Q : List α → α → σ → σ → Prop} {P : List α → α → Prop} (I : List α → σ → Prop) {s₀ : σ}
    (h0 : I [] s₀) (hiff : ∀ tr s a s', I tr s → step s a = some s' → (Q tr a s s' ↔ P tr a))
    (hstep : ∀ tr s a s', I tr s → step s a = some s' → P tr a → I (tr ++ [a]) s') {as : List α} {t : σ}
    (hr : run step s₀ as = some t) :
    (∀ pre a post, as = pre ++ a :: post →
      ∀ s s', run step s₀ pre = some s → step s a = some s' → Q pre a s s') ↔
      ∀ pre a post, as = pre ++ a :: post → P pre a :=
  steps_iff_of_meets I h0 (fun tr s a s' hI _ => hiff tr s a s' hI) (fun tr s a s' hI _ => hstep tr s a s' hI)
    (meets_true s₀ as) hr

/-- The same of a step function whose every action can happen. -/
theorem fold_steps_iff_of_meets {f : σ → α → σ} {ok : σ → α → Prop} {Q : List α → α → σ → σ → Prop} {P : List α → α → Prop}
    (I : List α → σ → Prop) {s₀ : σ} (h0 : I [] s₀) (hiff : ∀ tr s a, I tr s → ok s a → (Q tr a s (f s a) ↔ P tr a))
    (hstep : ∀ tr s a, I tr s → ok s a → P tr a → I (tr ++ [a]) (f s a)) {as : List α}
    (hm : Meets (fun s a => some (f s a)) ok s₀ as) :
    (∀ pre a post, as = pre ++ a :: post → Q pre a (pre.foldl f s₀) ((pre ++ [a]).foldl f s₀)) ↔
      ∀ pre a post, as = pre ++ a :: post → P pre a := by
  have hsteps : ∀ tr s a s', I tr s → ok s a → some (f s a) = some s' → (Q tr a s s' ↔ P tr a) := by
    intro tr s a s' hI hok hs
    cases hs
    exact hiff tr s a hI hok
  have hkept : ∀ tr s a s', I tr s → ok s a → some (f s a) = some s' → P tr a → I (tr ++ [a]) s' := by
    intro tr s a s' hI hok hs hP
    cases hs
    exact hstep tr s a hI hok hP
  rw [← steps_iff_of_meets I h0 hsteps hkept hm (run_some f s₀ as)]
  refine forall_congr' fun pre => forall_congr' fun a => forall_congr' fun post => forall_congr' fun _ => ?_
  rw [List.foldl_append]
  constructor
  · intro h s s' hs hs'
    rw [run_some] at hs
    cases hs
    cases hs'
    exact h
  · intro h
    exact h _ _ (run_some f s₀ pre) rfl

theorem fold_steps_iff {f : σ → α → σ} {Q : List α → α → σ → σ → Prop} {P : List α → α → Prop} (I : List α → σ → Prop) {s₀ : σ}
    (h0 : I [] s₀) (hiff : ∀ tr s a, I tr s → (Q tr a s (f s a) ↔ P tr a))
    (hstep : ∀ tr s a, I tr s → P tr a → I (tr ++ [a]) (f s a)) (as : List α) :
    (∀ pre a post, as = pre ++ a :: post → Q pre a (pre.foldl f s₀) ((pre ++ [a]).foldl f s₀)) ↔
      ∀ pre a post, as = pre ++ a :: post → P pre a :=
  fold_steps_iff_of_meets I h0 (fun tr s a hI _ => hiff tr s a hI) (fun tr s a hI _ => hstep tr s a hI) (meets_true s₀ as)

/-! ## Endless sequences -/

/-- What lowers a bounded measure for as long as it lasts does not last. -/
theorem exists_leaves {P : Nat → Prop} (μ : Nat → Int) (b : Int)
    (h : ∀ n, P n → P (n + 1) → μ (n + 1) < μ n ∧ b ≤ μ (n + 1)) {n : Nat} (hn : P n) :
    ∃ m, n ≤ m ∧ P m ∧ ¬P (m + 1) := by
  induction hk : (μ n - b).toNat using Nat.strongRecOn generalizing n with
  | ind k ih =>
    by_cases hn' : P (n + 1)
    · obtain ⟨hlt, hb⟩ := h n hn hn'
      obtain ⟨m, hm, hP⟩ := ih (μ (n + 1) - b).toNat (by omega) hn' rfl
      exact ⟨m, by omega, hP⟩
    · exact ⟨n, Nat.le_refl n, hn, hn'⟩

/-- What holds at first and not always is left. -/
theorem exists_leaves_of_not {P : Nat → Prop} (h0 : P 0) (h : ¬∀ n, P n) : ∃ m, P m ∧ ¬P (m + 1) := by
  by_contra hn
  apply h
  intro n
  induction n with
  | zero => exact h0
  | succ n ih =>
    by_contra hs
    exact hn ⟨n, ih, hs⟩

/-! ## Runs of a relation -/

/-- `R` from one state to another, a label at a time. -/
inductive Steps (R : σ → α → σ → Prop) : σ → List α → σ → Prop
  | nil (s : σ) : Steps R s [] s
  | cons {s s' t : σ} {a : α} {as : List α} : R s a s' → Steps R s' as t → Steps R s (a :: as) t

/-- A step of `R` that `R'` can follow, whenever `S` relates the two, makes a run
that `R'` can follow. -/
theorem Steps.simulate {ρ : Type} {R : σ → α → σ → Prop} {R' : ρ → α → ρ → Prop} (S : σ → ρ → Prop)
    (hstep : ∀ s r a s', S s r → R s a s' → ∃ r', R' r a r' ∧ S s' r') {s t : σ} {as : List α} (hs : Steps R s as t)
    {r : ρ} (hr : S s r) : ∃ u, Steps R' r as u ∧ S t u := by
  induction hs generalizing r with
  | nil s => exact ⟨r, .nil r, hr⟩
  | cons ha _ ih =>
    obtain ⟨r', hr', hS⟩ := hstep _ r _ _ hr ha
    obtain ⟨u, hu, hS'⟩ := ih hS
    exact ⟨u, .cons hr' hu, hS'⟩

end Vento.Lib
