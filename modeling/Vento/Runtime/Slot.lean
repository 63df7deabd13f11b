import Vento.Lib.Runs
/-!
# Where a protocol thread waits for an answer

`Slot` as in `runtime/src/slot.rs`. Every operation runs under the slot's one
mutex, so an interleaving of the threads that share a slot is a list of
operations (`Op`). A waiter asleep on the condition variable holds no lock:
its `wait` is the step in which it finds the slot filled and takes what is
there, and it is not possible while the slot is empty.
-/

namespace Vento.Runtime

open Vento.Lib

/-- What a slot holds: nothing yet, an answer or a cancel (`none`), or that the
protocol took the question back. -/
inductive State (α : Type) where
  | empty
  | answered (value : Option α)
  | withdrawn
deriving DecidableEq, Repr

/-- What a question that can be withdrawn came to. -/
inductive Asked (α : Type) where
  | answered (value : α)
  | cancelled
  | withdrawn
deriving DecidableEq, Repr

/-- The pair under the mutex. `asked` is set from `begin` until the wait ends. -/
structure Slot (α : Type) where
  state : State α
  asked : Bool
deriving DecidableEq, Repr

namespace Slot

variable {α β : Type}

def new : Slot α := ⟨.empty, false⟩

/-- A question is about to be asked: an answer or a withdrawal left over is
dropped, a cancel is kept. -/
def begin (s : Slot α) : Slot α :=
  match s.state with
  | .answered (some _) | .withdrawn => ⟨.empty, true⟩
  | _ => ⟨s.state, true⟩

/-- The answer, or that the question was withdrawn; `none` while it blocks. -/
def waitAsked (s : Slot α) : Option (Asked α × Slot α) :=
  match s.state with
  | .empty => none
  | .answered (some value) => some (.answered value, ⟨.empty, false⟩)
  | .answered none => some (.cancelled, ⟨.empty, false⟩)
  | .withdrawn => some (.withdrawn, ⟨.empty, false⟩)

def wait (s : Slot α) : Option (Option α × Slot α) :=
  s.waitAsked.map fun
    | (.answered value, s') => (some value, s')
    | (.cancelled, s') | (.withdrawn, s') => (none, s')

def answer (s : Slot α) (value : Option α) : Slot α := ⟨.answered value, s.asked⟩

/-- Takes back a question begun and not yet answered; nothing otherwise. -/
def withdraw (s : Slot α) : Slot α :=
  match s.asked, s.state with
  | true, .empty => ⟨.withdrawn, true⟩
  | _, _ => s

end Slot

/-! ## Interleavings -/

/-- One operation on a slot, by whichever thread. -/
inductive Op (α : Type) where
  | begin
  | wait
  | answer (value : Option α)
  | withdraw
deriving DecidableEq, Repr

namespace Op

variable {α β : Type}

def step (s : Slot α) : Op α → Option (Slot α)
  | .begin => some s.begin
  | .wait => s.waitAsked.map (·.2)
  | .answer value => some (s.answer value)
  | .withdraw => some s.withdraw

/-- The slot after the operations `ops`, from a new slot. -/
def after (ops : List (Op α)) : Option (Slot α) := run step Slot.new ops

/-- A waiter that takes what the slot holds after `ops` receives `o`. -/
def Receives (ops : List (Op α)) (o : Asked α) : Prop :=
  ∃ s s', after ops = some s ∧ s.waitAsked = some (o, s')

/-- What an operation records for the waiter, if it is the first to do so. -/
def recorded : Op α → Option (Asked α)
  | .answer (some value) => some (.answered value)
  | .answer none => some .cancelled
  | .withdraw => some .withdrawn
  | .begin | .wait => none

/-- The operation neither begins nor ends a question. -/
def isMid : Op α → Bool
  | .begin | .wait => false
  | _ => true

/-- A cancel was recorded and no waiter has taken anything since. -/
def cancelPending (ops : List (Op α)) : Bool :=
  ops.foldl (fun p op => match op with
    | .answer none => true
    | .wait => false
    | _ => p) false

def map (f : α → β) : Op α → Op β
  | .begin => .begin
  | .wait => .wait
  | .answer value => .answer (value.map f)
  | .withdraw => .withdraw

/-- The operations with every answer marked by its position, so that two equal
answers can be told apart. -/
def tagged (ops : List (Op α)) : List (Op (α × Nat)) :=
  ops.mapIdx fun i op => op.map (·, i)

/-- The waiter at position `t` receives the answer recorded at position `i`. -/
def ReceivesFrom (ops : List (Op α)) (t i : Nat) : Prop :=
  ops[t]? = some .wait ∧ ∃ v, Receives (tagged (ops.take t)) (.answered (v, i))

end Op

/-! ## The first one there stands -/

namespace Slot

variable {α : Type}

/-- What a waiter would take now. -/
def outcome (s : Slot α) : Option (Asked α) := s.waitAsked.map (·.1)

/-- Something is recorded that a later answer has to leave alone: the outcome
of the question that is open, or a cancel. -/
def Standing (s : Slot α) : Prop := s.state = .answered none ∨ (s.asked = true ∧ s.state ≠ .empty)

theorem Standing.filled {s : Slot α} (h : s.Standing) : s.state ≠ .empty := by
  rcases h with h | h
  · simp [h]
  · exact h.2

theorem outcome_eq_some {s : Slot α} {o : Asked α} : s.outcome = some o ↔ ∃ s', s.waitAsked = some (o, s') := by
  simp [outcome]

theorem outcome_isSome_iff (s : Slot α) : s.outcome.isSome ↔ s.state ≠ .empty := by
  rcases s with ⟨_ | (_ | _) | _, _⟩ <;> simp [outcome, waitAsked]

@[simp]
theorem answer_outcome (s : Slot α) (v : Option α) : (s.answer v).outcome = (Op.answer v).recorded := by
  cases v <;> rfl

/-- A withdrawal counts in an open question without an outcome, and there only. -/
theorem withdraw_cases (s : Slot α) : s.withdraw = s ∨ (s = ⟨.empty, true⟩ ∧ s.withdraw = ⟨.withdrawn, true⟩) := by
  rcases s with ⟨_ | _ | _, _ | _⟩ <;> simp [withdraw]

theorem withdraw_of_filled {s : Slot α} (h : s.state ≠ .empty) : s.withdraw = s := by
  rcases s.withdraw_cases with hs | ⟨rfl, -⟩
  · exact hs
  · exact absurd rfl h

/-- Only a cancel survives `begin`. -/
theorem begin_cases (s : Slot α) :
    (s.state = .answered none ∧ s.begin = ⟨.answered none, true⟩) ∨
      (s.state ≠ .answered none ∧ s.begin = ⟨.empty, true⟩) := by
  rcases s with ⟨_ | (_ | _) | _, _⟩ <;> simp [begin]

theorem begin_asked (s : Slot α) : s.begin.asked = true := by
  rcases s.begin_cases with ⟨-, hb⟩ | ⟨-, hb⟩ <;> rw [hb]

/-- A waiter leaves the slot empty, whatever it took. -/
theorem waitAsked_empties {s s' : Slot α} {o : Asked α} (h : s.waitAsked = some (o, s')) : s' = ⟨.empty, false⟩ := by
  rcases s with ⟨_ | (_ | _) | _, _⟩ <;> cases h <;> rfl

end Slot

namespace Op

variable {α : Type}

/-- The condition under which the first one there stands: an answer is recorded
only while nothing stands. -/
def Unsettled (s : Slot α) : Op α → Prop
  | .answer _ => ¬ s.Standing
  | _ => True

theorem receives_iff {ops : List (Op α)} {o : Asked α} :
    Receives ops o ↔ ∃ s, after ops = some s ∧ s.outcome = some o := by
  simp only [Receives, Slot.outcome_eq_some]
  constructor
  · rintro ⟨s, s', hs, hw⟩
    exact ⟨s, hs, s', hw⟩
  · rintro ⟨s, hs, s', hw⟩
    exact ⟨s, s', hs, hw⟩

theorem step_wait {s s' : Slot α} (h : step s .wait = some s') : s' = ⟨.empty, false⟩ := by
  obtain ⟨⟨o, t⟩, hw, rfl⟩ := Option.map_eq_some_iff.1 h
  exact Slot.waitAsked_empties hw

/-- Between the operations that begin and end questions, what stands stays. -/
theorem standing_keep {mid : List (Op α)} (hmid : ∀ op ∈ mid, op.isMid) {s t : Slot α} (hs : s.Standing)
    (hm : Meets step Unsettled s mid) (hr : run step s mid = some t) : t = s := by
  induction mid generalizing s with
  | nil => cases hr; rfl
  | cons op mid ih =>
    obtain ⟨u, hu, hr'⟩ := run_cons_some hr
    have hus : u = s := by
      cases op with
      | begin => simp [isMid] at hmid
      | wait => simp [isMid] at hmid
      | answer v => exact absurd hs hm.1
      | withdraw =>
        cases hu
        exact Slot.withdraw_of_filled hs.filled
    rw [hus] at hu hr'
    exact ih (fun op h => hmid op (by simp [h])) hs (hm.2 _ hu) hr'

/-- In an open question, the outcome is the one that stood, or else the first
that an operation records. -/
theorem first_recorded {mid : List (Op α)} (hmid : ∀ op ∈ mid, op.isMid) {s t : Slot α} (hs : s.asked = true)
    (hm : Meets step Unsettled s mid) (hr : run step s mid = some t) :
    t.outcome = s.outcome.or (mid.findSome? recorded) := by
  by_cases hst : s.state = .empty
  · obtain ⟨st, b⟩ := s
    simp only at hst hs
    subst hst hs
    cases mid with
    | nil => cases hr; rfl
    | cons op mid =>
      obtain ⟨u, hu, hr⟩ := run_cons_some hr
      have hmid' : ∀ op ∈ mid, op.isMid := fun op h => hmid op (by simp [h])
      cases op with
      | begin => simp [isMid] at hmid
      | wait => simp [isMid] at hmid
      | answer v =>
        cases hu
        have hst : Slot.Standing (Slot.answer ⟨.empty, true⟩ v) := .inr ⟨rfl, by simp [Slot.answer]⟩
        rw [standing_keep hmid' hst (hm.2 _ rfl) hr, Slot.answer_outcome]
        cases v <;> rfl
      | withdraw =>
        cases hu
        have hst : Slot.Standing (Slot.withdraw ⟨.empty, true⟩ : Slot α) := .inr ⟨rfl, by simp [Slot.withdraw]⟩
        rw [standing_keep hmid' hst (hm.2 _ rfl) hr]
        rfl
  · rw [standing_keep hmid (.inr ⟨hs, hst⟩) hm hr]
    obtain ⟨o, ho⟩ := Option.isSome_iff_exists.1 ((Slot.outcome_isSome_iff s).2 hst)
    simp [ho]

theorem cancelPending_snoc (ops : List (Op α)) (op : Op α) :
    cancelPending (ops ++ [op]) = match op with
      | .answer none => true
      | .wait => false
      | _ => cancelPending ops := by
  simp [cancelPending]

/-- While nothing overwrites it, a pending cancel is what the slot holds. -/
theorem cancelPending_iff {ops : List (Op α)} {s : Slot α} (hm : Meets step Unsettled Slot.new ops)
    (hr : after ops = some s) : cancelPending ops = true ↔ s.state = .answered none := by
  refine trace_inv (fun ops s => cancelPending ops = true ↔ s.state = .answered none)
    (by simp [cancelPending, Slot.new])
    ?_ hm hr
  intro tr s op s' hi hok hs
  rw [cancelPending_snoc]
  cases op with
  | begin =>
    cases hs
    rcases s.begin_cases with ⟨hst, hb⟩ | ⟨hst, hb⟩
    · simpa [hb, hst] using hi
    · simpa [hb, hst] using hi
  | wait =>
    rw [step_wait hs]
    simp
  | answer v =>
    cases hs
    cases v with
    | none => simp [Slot.answer]
    | some v =>
      -- the cancel would stand, and the answer not be recorded
      have hst : s.state ≠ .answered none := fun h => hok (.inl h)
      simpa [Slot.answer, hst] using hi
  | withdraw =>
    cases hs
    rcases s.withdraw_cases with hw | ⟨rfl, hw⟩
    · rwa [hw]
    · simpa [hw] using hi

/-! ## Which answer a waiter receives -/

/-- The answer `x` was recorded at position `k`, and nothing since began or
ended a question. -/
def LeftFrom (ops : List (Op α)) (k : Nat) (x : α) : Prop :=
  ops[k]? = some (.answer (some x)) ∧ ∀ (j : Nat) (op : Op α), k < j → ops[j]? = some op → op.isMid

theorem held_from {ops : List (Op α)} {s : Slot α} (hr : after ops = some s) :
    ∀ x, s.state = .answered (some x) → ∃ k, LeftFrom ops k x := by
  refine trace_inv_all (fun ops s => ∀ x, s.state = .answered (some x) → ∃ k, LeftFrom ops k x)
    (by simp [Slot.new]) ?_ hr
  intro tr s op s' hi hs x hx
  cases op with
  | begin =>
    cases hs
    rcases s.begin_cases with ⟨-, hb⟩ | ⟨-, hb⟩ <;> simp [hb] at hx
  | wait =>
    rw [step_wait hs] at hx
    cases hx
  | answer v =>
    cases hs
    simp only [Slot.answer, State.answered.injEq] at hx
    subst hx
    refine ⟨tr.length, by simp, fun j op hj hop => ?_⟩
    rw [List.getElem?_eq_none (by simp; omega)] at hop
    cases hop
  | withdraw =>
    cases hs
    have hst : s.state = .answered (some x) := by
      rcases s.withdraw_cases with hw | ⟨rfl, hw⟩
      · rwa [hw] at hx
      · simp [hw] at hx
    -- the answer is where it was, and a withdrawal neither begins nor ends a question
    obtain ⟨k, hk, hmid⟩ := hi x hst
    have hlt : k < tr.length := (List.getElem?_eq_some_iff.1 hk).1
    refine ⟨k, by rw [List.getElem?_append_left hlt, hk], fun j op hj hop => ?_⟩
    rcases Nat.lt_or_ge j tr.length with h | h
    · exact hmid j op hj (by rwa [List.getElem?_append_left h] at hop)
    · rw [List.getElem?_append_right h] at hop
      cases e : j - tr.length <;> simp [e] at hop
      subst hop
      rfl

theorem waitAsked_answered {s s' : Slot α} {x : α} (h : s.waitAsked = some (.answered x, s')) :
    s.state = .answered (some x) := by
  rcases s with ⟨_ | (_ | _) | _, _⟩ <;> simp [Slot.waitAsked] at h
  simp [h]

theorem tagged_getElem? (ops : List (Op α)) (j : Nat) : (tagged ops)[j]? = (ops[j]?).map (·.map (·, j)) := by
  simp [tagged, List.getElem?_mapIdx]

theorem isMid_map {β : Type} (f : α → β) (op : Op α) : (op.map f).isMid = op.isMid := by
  cases op <;> rfl

/-- The answer a waiter receives was recorded before it, with that value, and
no question began or ended in between. -/
theorem receivesFrom_spec {ops : List (Op α)} {t i : Nat} (h : ReceivesFrom ops t i) :
    i < t ∧ (∃ v, ops[i]? = some (.answer (some v))) ∧
      ∀ (j : Nat) (op : Op α), i < j → j < t → ops[j]? = some op → op.isMid := by
  obtain ⟨hw, v, s, s', hs, hv⟩ := h
  obtain ⟨k, hk, hmid⟩ := held_from hs (v, i) (waitAsked_answered hv)
  rw [tagged_getElem?] at hk
  obtain ⟨op, hop, hmap⟩ := Option.map_eq_some_iff.1 hk
  have hki : i = k ∧ ∃ w, op = .answer (some w) := by
    rcases op with _ | _ | (_ | w) | _ <;> simp [Op.map] at hmap
    exact ⟨hmap.2.symm, w, rfl⟩
  obtain ⟨rfl, w, rfl⟩ := hki
  rw [List.getElem?_take] at hop
  split at hop
  · rename_i hit
    refine ⟨hit, ⟨w, hop⟩, fun j op' hj hjt hop' => ?_⟩
    have := hmid j (op'.map (·, j)) hj (by simp [tagged_getElem?, hjt, hop'])
    rwa [isMid_map] at this
  · cases hop

end Op

namespace Slot

variable {α β : Type}

/-- The slot with its answer, if it holds one, changed by `f`. -/
def map (f : α → β) (s : Slot α) : Slot β :=
  ⟨match s.state with
    | .empty => .empty
    | .answered value => .answered (value.map f)
    | .withdrawn => .withdrawn, s.asked⟩

end Slot

namespace Op

variable {α β : Type}

theorem step_map (f : α → β) (s : Slot α) (op : Op α) :
    step (s.map f) (op.map f) = (step s op).map (Slot.map f) := by
  rcases s with ⟨_ | (_ | _) | _, _ | _⟩ <;> rcases op with _ | _ | (_ | _) | _ <;> rfl

/-- A slot treats every answer alike, whatever it is. -/
theorem after_map (f : α → β) (ops : List (Op α)) : after (ops.map (map f)) = (after ops).map (Slot.map f) := by
  have go : ∀ (ops : List (Op α)) (s : Slot α),
      run step (s.map f) (ops.map (map f)) = (run step s ops).map (Slot.map f) := by
    intro ops
    induction ops with
    | nil => intro s; rfl
    | cons op ops ih =>
      intro s
      rw [List.map_cons, run_cons, run_cons, step_map]
      cases step s op with
      | none => rfl
      | some s' => simpa using ih s'
  exact go ops Slot.new

theorem tagged_untag (ops : List (Op α)) : (tagged ops).map (map Prod.fst) = ops := by
  apply List.ext_getElem?
  intro j
  rw [List.getElem?_map, tagged_getElem?]
  rcases ops[j]? with _ | (_ | _ | (_ | _) | _) <;> rfl

/-- Every answer a waiter receives is the one recorded at some position. -/
theorem exists_receivesFrom {ops : List (Op α)} {t : Nat} {v : α} (ht : ops[t]? = some .wait)
    (h : Receives (ops.take t) (.answered v)) : ∃ i, ReceivesFrom ops t i := by
  obtain ⟨s, s', hs, hw⟩ := h
  rw [← tagged_untag (ops.take t), after_map] at hs
  obtain ⟨u, hu, rfl⟩ := Option.map_eq_some_iff.1 hs
  rcases u with ⟨_ | (_ | ⟨w, i⟩) | _, b⟩ <;> simp [Slot.map, Slot.waitAsked] at hw
  exact ⟨i, ht, w, _, _, hu, rfl⟩

/-- The rule of the race: in the run `ops`, the waiter of a begun question takes
the first outcome recorded after `begin`, or a cancel recorded before it; once a
cancel or a withdrawal stands no later answer changes what the waiter takes;
and an answer goes to at most one waiter, and to no question begun after it. -/
structure FirstOneStands (ops : List (Op α)) : Prop where
  first : ∀ pre mid rest o, ops = pre ++ .begin :: mid ++ .wait :: rest → (∀ op ∈ mid, op.isMid) →
    Receives (pre ++ .begin :: mid) o →
    some o = if cancelPending pre then some .cancelled else mid.findSome? recorded
  settled : ∀ pre mid rest s o, ops = pre ++ mid ++ .wait :: rest → (∀ op ∈ mid, op.isMid) → after pre = some s →
    s.state = .answered none ∨ s.state = .withdrawn → Receives (pre ++ mid) o → s.outcome = some o
  source : ∀ t v, ops[t]? = some .wait → Receives (ops.take t) (.answered v) → ∃ i, ReceivesFrom ops t i
  once : ∀ t₁ t₂ i, ReceivesFrom ops t₁ i → ReceivesFrom ops t₂ i → t₁ = t₂
  dropped : ∀ t b i, ReceivesFrom ops t i → b < t → ops[b]? = some .begin → b < i

theorem receivesFrom_once {ops : List (Op α)} {t₁ t₂ i : Nat} (h₁ : ReceivesFrom ops t₁ i)
    (h₂ : ReceivesFrom ops t₂ i) : t₁ = t₂ := by
  have hle : ∀ {t u : Nat}, ReceivesFrom ops t i → ReceivesFrom ops u i → u ≤ t := by
    intro t u ht hu
    by_contra hlt
    have := (receivesFrom_spec hu).2.2 t .wait (receivesFrom_spec ht).1 (by omega) ht.1
    simp [isMid] at this
  exact Nat.le_antisymm (hle h₂ h₁) (hle h₁ h₂)

theorem receivesFrom_begin {ops : List (Op α)} {t b i : Nat} (h : ReceivesFrom ops t i) (hbt : b < t)
    (hb : ops[b]? = some .begin) : b < i := by
  obtain ⟨-, ⟨v, hv⟩, hmid⟩ := receivesFrom_spec h
  rcases Nat.lt_trichotomy b i with hlt | rfl | hgt
  · exact hlt
  · simp [hb] at hv
  · have := hmid b .begin hgt hbt hb
    simp [isMid] at this

/-- A withdrawn slot has a question open. -/
theorem withdrawn_asked {ops : List (Op α)} {s : Slot α} (hr : after ops = some s) (h : s.state = .withdrawn) :
    s.asked = true := by
  refine trace_inv_all (fun _ s => s.state = .withdrawn → s.asked = true) (by simp [Slot.new]) ?_ hr h
  intro tr s op s' hi hs hst
  cases op with
  | begin =>
    cases hs
    rcases s.begin_cases with ⟨-, hb⟩ | ⟨-, hb⟩ <;> rw [hb]
  | wait =>
    rw [step_wait hs] at hst
    cases hst
  | answer v =>
    cases hs
    cases hst
  | withdraw =>
    cases hs
    rcases s.withdraw_cases with hw | ⟨-, hw⟩
    · rw [hw] at hst ⊢
      exact hi hst
    · rw [hw]

/-- What the waiter of a begun question takes, in a run that meets the condition. -/
theorem begun_outcome {pre mid : List (Op α)} {t : Slot α} (hm : Meets step Unsettled Slot.new (pre ++ .begin :: mid))
    (hmid : ∀ op ∈ mid, op.isMid) (hr : after (pre ++ .begin :: mid) = some t) :
    t.outcome = if cancelPending pre then some .cancelled else mid.findSome? recorded := by
  obtain ⟨s, hs, hr⟩ := run_append_some hr
  obtain ⟨u, hu, hr⟩ := run_cons_some hr
  cases hu
  have hmm := (hm.append_right hs).2 _ rfl
  rw [first_recorded hmid (Slot.begin_asked s) hmm hr]
  have hc := cancelPending_iff hm.append_left hs
  by_cases hp : cancelPending pre
  · rcases s.begin_cases with ⟨-, hb⟩ | ⟨hst, -⟩
    · simp [hp, hb, Slot.outcome, Slot.waitAsked]
    · exact absurd (hc.1 hp) hst
  · rcases s.begin_cases with ⟨hst, -⟩ | ⟨-, hb⟩
    · exact absurd (hc.2 hst) hp
    · simp [hp, hb, Slot.outcome, Slot.waitAsked]

/-- An open question was begun, and nothing since began or ended one. -/
theorem asked_begun {ops : List (Op α)} {s : Slot α} (hr : after ops = some s) (h : s.asked = true) :
    ∃ pre mid, ops = pre ++ .begin :: mid ∧ ∀ op ∈ mid, op.isMid := by
  refine trace_inv_all (fun ops s => s.asked = true → ∃ pre mid, ops = pre ++ .begin :: mid ∧ ∀ op ∈ mid, op.isMid)
    (by simp [Slot.new]) ?_ hr h
  intro tr s op s' hi hs hask
  have keep : s.asked = true → op.isMid → ∃ pre mid, tr ++ [op] = pre ++ .begin :: mid ∧ ∀ op ∈ mid, op.isMid := by
    intro hb hop
    obtain ⟨pre, mid, rfl, hmid⟩ := hi hb
    exact ⟨pre, mid ++ [op], by simp, List.forall_mem_append.2 ⟨hmid, List.forall_mem_singleton.2 hop⟩⟩
  cases op with
  | begin => exact ⟨tr, [], rfl, by simp⟩
  | wait =>
    rw [step_wait hs] at hask
    cases hask
  | answer v =>
    cases hs
    exact keep hask rfl
  | withdraw =>
    cases hs
    rcases s.withdraw_cases with hw | ⟨rfl, -⟩
    · rw [hw] at hask
      exact keep hask rfl
    · exact keep rfl rfl

/-- An answer recorded over the outcome of the open question is what its waiter
takes. -/
theorem overtaken_open {ops : List (Op α)} (hm : Meets step Unsettled Slot.new ops) {s : Slot α} {v : Option α}
    (hs : after ops = some s) (hstand : s.Standing) (hask : s.asked = true)
    (hne : s.outcome ≠ (Op.answer v).recorded) :
    (after (ops ++ [.answer v, .wait])).isSome ∧ ¬ FirstOneStands (ops ++ [.answer v, .wait]) := by
  obtain ⟨pre, mid, rfl, hmid⟩ := asked_begun hs hask
  have hv : after (pre ++ .begin :: (mid ++ [.answer v])) = some (s.answer v) := by
    simpa [after] using run_snoc (a := .answer v) hs rfl
  obtain ⟨o, ho⟩ : ∃ o, (Op.answer v).recorded = some o := by cases v <;> exact ⟨_, rfl⟩
  have hmid' : ∀ op ∈ mid ++ [.answer v], op.isMid :=
    List.forall_mem_append.2 ⟨hmid, List.forall_mem_singleton.2 rfl⟩
  constructor
  · have hw : step (s.answer v) .wait = some ⟨.empty, false⟩ := by cases v <;> rfl
    have := run_snoc hv hw
    simp only [List.append_assoc, List.cons_append, List.nil_append] at this ⊢
    rw [after, this]
    rfl
  · intro hf
    have hfirst := hf.first pre (mid ++ [.answer v]) [] o (by simp) hmid'
      (receives_iff.2 ⟨s.answer v, hv, by simpa using ho⟩)
    have hout := begun_outcome hm hmid hs
    obtain ⟨o', ho'⟩ := Option.isSome_iff_exists.1 ((Slot.outcome_isSome_iff s).2 hstand.filled)
    rw [ho'] at hout
    -- what stood is still the first one recorded
    have hsame : some o = some o' := by
      rw [hfirst, hout]
      by_cases hp : cancelPending pre
      · simp [hp]
      · simp only [hp, Bool.false_eq_true, if_false] at hout ⊢
        rw [List.findSome?_append, ← hout]
        rfl
    exact hne (by rw [ho', ho, hsame])

/-- An answer recorded over a cancel makes the next question forget the cancel. -/
theorem overtaken_cancel {ops : List (Op α)} (hm : Meets step Unsettled Slot.new ops) {s : Slot α} {w : α}
    (hs : after ops = some s) (hst : s.state = .answered none) :
    (after (ops ++ [.answer (some w), .begin, .answer (some w), .wait])).isSome ∧
      ¬ FirstOneStands (ops ++ [.answer (some w), .begin, .answer (some w), .wait]) := by
  have hv : after (ops ++ [.answer (some w)] ++ .begin :: [.answer (some w)]) = some ⟨.answered (some w), true⟩ := by
    simp [after, run_append, show run step Slot.new ops = some s from hs, run_cons, step, Slot.answer, Slot.begin]
  constructor
  · have := run_snoc (a := .wait) hv rfl
    simp only [List.append_assoc, List.cons_append, List.nil_append] at this
    rw [after, this]
    rfl
  · intro hf
    have hfirst := hf.first (ops ++ [.answer (some w)]) [.answer (some w)] [] (.answered w) (by simp) (by simp [isMid])
      (receives_iff.2 ⟨_, hv, rfl⟩)
    rw [cancelPending_snoc] at hfirst
    simp [(cancelPending_iff hm hs).2 hst] at hfirst

/-- In every run in which an answer is recorded only while nothing stands, the
first one there stands. The condition is needed: after such a run, an answer
that differs from what stands leads to a run that breaks the rule. -/
theorem first_one_stands (ops : List (Op α)) (hm : Meets step Unsettled Slot.new ops) :
    FirstOneStands ops ∧
      ∀ s v, after ops = some s → s.Standing → s.outcome ≠ (Op.answer v).recorded →
        ∃ rest, (after (ops ++ .answer v :: rest)).isSome ∧ ¬ FirstOneStands (ops ++ .answer v :: rest) := by
  refine ⟨⟨?_, ?_, fun _ _ ht h => exists_receivesFrom ht h, fun _ _ _ => receivesFrom_once,
    fun _ _ _ h hbt hb => receivesFrom_begin h hbt hb⟩, ?_⟩
  · rintro pre mid rest o rfl hmid h
    obtain ⟨s, hs, ho⟩ := receives_iff.1 h
    rw [← ho, begun_outcome hm.append_left hmid hs]
  · rintro pre mid rest s o rfl hmid hs hst h
    obtain ⟨t, ht, ho⟩ := receives_iff.1 h
    obtain ⟨s', hs', hr⟩ := run_append_some ht
    cases hs.symm.trans hs'
    have hstand : s.Standing := by
      rcases hst with h | h
      · exact .inl h
      · exact .inr ⟨withdrawn_asked hs h, by simp [h]⟩
    rw [standing_keep hmid hstand (hm.append_left.append_right hs) hr] at ho
    exact ho
  · intro s v hs hstand hne
    by_cases hask : s.asked = true
    · exact ⟨[.wait], overtaken_open hm hs hstand hask hne⟩
    · have hst : s.state = .answered none := hstand.resolve_right (fun h => hask h.1)
      cases v with
      | none => exact absurd (by simp [Slot.outcome, Slot.waitAsked, hst, recorded]) hne
      | some w => exact ⟨[.begin, .answer (some w), .wait], overtaken_cancel hm hs hst⟩

/-- An answer given before the withdrawal stands, and the late one is dropped. -/
theorem first_one_stands_crossing :
    FirstOneStands [.begin, .answer (some 4), .withdraw, .wait, .answer (some 5), .begin, .answer (some 6), .wait] :=
  (first_one_stands _ (by simp [Meets, Unsettled, step, Slot.Standing, Slot.new, Slot.begin, Slot.answer,
    Slot.withdraw, Slot.waitAsked])).1

/-- A withdrawal is recorded first, the answer that crosses it overwrites it, and
the waiter takes the answer. -/
theorem withdrawal_overwritten : ¬ FirstOneStands [.begin, .withdraw, .answer (some 2), .wait] := by
  intro h
  have := h.first [] [.withdraw, .answer (some 2)] [] (.answered 2) rfl (by decide) ⟨_, _, rfl, rfl⟩
  exact absurd this (by decide)

end Op

end Vento.Runtime
