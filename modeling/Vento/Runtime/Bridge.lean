import Vento.Runtime.Slot
/-!
# The trust question

`Bridge` and `Runner::disconnect` as in `runtime/src/runner.rs`. The protocol
thread asks one question at a time: it fires the question's event and then
waits on the trust slot, which `trust` and `unverified` share. Other threads
answer and disconnect at any moment. Unlike `credentials`, the trust questions
do not call `Slot::begin`, so whatever the slot still holds answers the next
question.
-/

namespace Vento.Runtime

open Vento.Lib

variable {C : Type}

/-- The two slots a protocol thread waits on. -/
structure Bridge (C : Type) where
  credentials : Slot C
  trust : Slot Bool

/-- The two questions the trust slot answers, with what their event carries. -/
inductive Question where
  | trust (fingerprint : String)
  | unverified (why : String)
deriving DecidableEq, Repr

/-- How far the one `disconnect` that closes the session has got. -/
inductive Closing where
  | notYet
  | swapped
  | credentialsCancelled
  | finished
deriving DecidableEq, Repr

namespace Bridge

def new : Bridge C := ⟨Slot.new, Slot.new⟩

def answerTrust (b : Bridge C) (accept : Bool) : Bridge C := { b with trust := b.trust.answer (some accept) }

/-- The first half of `cancel`. -/
def cancelCredentials (b : Bridge C) : Bridge C := { b with credentials := b.credentials.answer none }

/-- The second half of `cancel`: a pending trust question is refused. -/
def cancelTrust (b : Bridge C) : Bridge C := { b with trust := b.trust.answer (some false) }

/-- `trust` and `unverified` after their event: `wait().unwrap_or(false)`. -/
def waitTrust (b : Bridge C) : Option (Bool × Bridge C) :=
  b.trust.wait.map fun (accept, slot) => (accept.getD false, { b with trust := slot })

end Bridge

/-- A session: the bridge, the question the protocol thread is blocked in, and
`Runner`'s closed flag with the disconnect it let through. -/
structure Session (C : Type) where
  bridge : Bridge C
  asking : Option Question
  closed : Bool
  closing : Closing

namespace Session

def start : Session C := ⟨Bridge.new, none, false, .notYet⟩

end Session

/-- One atomic action of one of the threads. -/
inductive Act where
  /-- The protocol thread fires the question's event. -/
  | ask (q : Question)
  /-- The protocol thread's wait ends and the question returns. -/
  | wake
  | answerTrust (accept : Bool)
  /-- A call of `disconnect`: the swap of the closed flag. -/
  | disconnect
  | cancelCredentials
  | cancelTrust
deriving DecidableEq, Repr

namespace Act

def step (s : Session C) : Act → Option (Session C)
  | .ask q => if s.asking.isNone then some { s with asking := some q } else none
  | .wake =>
    match s.asking, s.bridge.waitTrust with
    | some _, some (_, bridge) => some { s with bridge, asking := none }
    | _, _ => none
  | .answerTrust accept => some { s with bridge := s.bridge.answerTrust accept }
  | .disconnect => some (if s.closed then s else { s with closed := true, closing := .swapped })
  | .cancelCredentials =>
    if s.closing = .swapped then
      some { s with bridge := s.bridge.cancelCredentials, closing := .credentialsCancelled }
    else none
  | .cancelTrust =>
    if s.closing = .credentialsCancelled then
      some { s with bridge := s.bridge.cancelTrust, closing := .finished }
    else none

/-- The session after the actions `tr`, from its start. -/
def after (C : Type) (tr : List Act) : Option (Session C) := run step Session.start tr

/-- The question the protocol thread is blocked in after `tr` can return
`accept`. -/
def Returns (C : Type) (tr : List Act) (accept : Bool) : Prop :=
  ∃ s q bridge, after C tr = some s ∧ s.asking = some q ∧ s.bridge.waitTrust = some (accept, bridge)

/-- The action fires a question's event or ends a question. -/
def isQuestion : Act → Bool
  | .ask _ | .wake => true
  | _ => false

/-- An accept was given since the event of the question that is open. No
question returned since either, so no earlier one has consumed it. -/
def AcceptedSince (tr : List Act) : Prop :=
  ∃ before q since, tr = before ++ .ask q :: since ∧ (∀ a ∈ since, a.isQuestion = false) ∧ .answerTrust true ∈ since

/-- Every question of the run that returns true was accepted after its own event. -/
def TrustFresh (C : Type) (tr : List Act) : Prop :=
  ∀ pre rest, tr = pre ++ .wake :: rest → Returns C pre true → AcceptedSince pre

/-- The condition under which trust is fresh: no question is asked while the
slot still holds an accept. -/
def NoneLeft (s : Session C) : Act → Prop
  | .ask _ => s.bridge.trust.state ≠ .answered (some true)
  | _ => True

theorem waitTrust_true {b b' : Bridge C} (h : b.waitTrust = some (true, b')) :
    b.trust.state = .answered (some true) := by
  obtain ⟨c, ⟨st, a⟩⟩ := b
  rcases st with _ | (_ | _) | _ <;> simp [Bridge.waitTrust, Slot.wait, Slot.waitAsked] at h
  simp [h.1]

theorem waitTrust_of_accept {b : Bridge C} (h : b.trust.state = .answered (some true)) :
    ∃ b', b.waitTrust = some (true, b') := by
  simp [Bridge.waitTrust, Slot.wait, Slot.waitAsked, h]

/-- What is known of the open question: where its event fired, and that an
accept in the slot was given since. -/
def OpenSince (tr : List Act) (s : Session C) : Prop :=
  ∀ q, s.asking = some q → ∃ before since, tr = before ++ .ask q :: since ∧ (∀ a ∈ since, a.isQuestion = false) ∧
    (s.bridge.trust.state = .answered (some true) → .answerTrust true ∈ since)

theorem OpenSince.snoc {tr : List Act} {s s' : Session C} {a : Act} (h : OpenSince tr s)
    (hask : s'.asking = s.asking) (ha : a.isQuestion = false)
    (htrust : s'.bridge.trust.state = .answered (some true) →
      s.bridge.trust.state = .answered (some true) ∨ a = .answerTrust true) : OpenSince (tr ++ [a]) s' := by
  intro q hq
  obtain ⟨before, since, rfl, hmid, hacc⟩ := h q (hask ▸ hq)
  have hmid' : ∀ b ∈ since ++ [a], b.isQuestion = false :=
    List.forall_mem_append.2 ⟨hmid, List.forall_mem_singleton.2 ha⟩
  refine ⟨before, since ++ [a], by simp, hmid', fun hs => ?_⟩
  rcases htrust hs with h | rfl
  · exact List.mem_append_left _ (hacc h)
  · simp

-- Only an answer puts an accept in the slot, and only a question's own event opens
-- it: with none left over, an accept that is there came after the event.
theorem openSince_step {tr : List Act} {s s' : Session C} {a : Act} (hi : OpenSince tr s) (hok : NoneLeft s a)
    (hs : step s a = some s') : OpenSince (tr ++ [a]) s' := by
  cases a with
  | ask q =>
    simp only [step] at hs
    split at hs
    · cases hs
      intro q' hq
      cases hq
      exact ⟨tr, [], rfl, by simp, fun h => absurd h hok⟩
    · cases hs
  | wake =>
    simp only [step] at hs
    split at hs
    · cases hs
      intro q' hq
      cases hq
    · cases hs
  | answerTrust accept =>
    cases hs
    refine hi.snoc rfl rfl (fun h => .inr ?_)
    simp only [Bridge.answerTrust, Slot.answer, State.answered.injEq, Option.some.injEq] at h
    rw [h]
  | disconnect =>
    cases hs
    split
    · exact hi.snoc rfl rfl .inl
    · exact hi.snoc rfl rfl .inl
  | cancelCredentials =>
    simp only [step] at hs
    split at hs
    · cases hs; exact hi.snoc rfl rfl .inl
    · cases hs
  | cancelTrust =>
    simp only [step] at hs
    split at hs
    · cases hs
      exact hi.snoc rfl rfl (fun h => by simp [Bridge.cancelTrust, Slot.answer] at h)
    · cases hs

theorem openSince_run {tr : List Act} {s : Session C} (hm : Meets (step (C := C)) NoneLeft Session.start tr)
    (hr : after C tr = some s) : OpenSince tr s :=
  trace_inv OpenSince (by intro q hq; cases hq) (fun _ _ _ _ hi hok hs => openSince_step hi hok hs) hm hr

/-- A run that ends in a question's event ends in no other kind of action. -/
theorem ask_last {before since pre : List Act} {q q' : Question} (h : pre ++ [.ask q] = before ++ .ask q' :: since)
    (hmid : ∀ a ∈ since, a.isQuestion = false) : since = [] := by
  rcases snoc_eq_append_cons.1 h with ⟨-, -, rfl⟩ | ⟨since, -, rfl⟩
  · rfl
  · cases hmid (.ask q) (by simp)

/-- In every run in which no question is asked while the slot holds an accept,
every question that returns true was accepted after its own event, and not for
an earlier question. The condition is needed: an accept left in the slot
answers the next question at once. -/
theorem trust_fresh (C : Type) (tr : List Act) (hm : Meets (step (C := C)) NoneLeft Session.start tr) :
    TrustFresh C tr ∧
      ∀ s q, after C tr = some s → s.asking = none → s.bridge.trust.state = .answered (some true) →
        (after C (tr ++ [.ask q, .wake])).isSome ∧ ¬ TrustFresh C (tr ++ [.ask q, .wake]) := by
  refine ⟨?_, ?_⟩
  · rintro pre rest rfl ⟨s, q, bridge, hs, hq, hw⟩
    obtain ⟨before, since, heq, hmid, hacc⟩ := openSince_run hm.append_left hs q hq
    exact ⟨before, q, since, heq, hmid, hacc (waitTrust_true hw)⟩
  · intro s q hs hask hst
    obtain ⟨b', hb'⟩ := waitTrust_of_accept hst
    have hq : after C (tr ++ [.ask q]) = some { s with asking := some q } := run_snoc hs (by simp [step, hask])
    refine ⟨?_, fun hf => ?_⟩
    · have hwake : step { s with asking := some q } .wake = some { s with bridge := b', asking := none } := by
        simp [step, hb']
      have := run_snoc hq hwake
      rw [List.append_assoc] at this
      rw [after]
      exact Option.isSome_iff_exists.2 ⟨_, this⟩
    · obtain ⟨before, q', since, heq, hmid, hacc⟩ := hf (tr ++ [.ask q]) [] (by simp)
        ⟨{ s with asking := some q }, q, b', hq, rfl, hb'⟩
      rw [ask_last heq hmid] at hacc
      cases hacc

/-- The second question is accepted by its own answer. -/
theorem trust_fresh_twice :
    TrustFresh Unit [.ask (.trust "ab:cd"), .answerTrust true, .wake, .ask (.unverified "no key"),
      .answerTrust true, .wake] :=
  (trust_fresh Unit _ (by simp [Meets, NoneLeft, step, Session.start, Bridge.new, Bridge.answerTrust, Bridge.waitTrust,
    Slot.new, Slot.answer, Slot.wait, Slot.waitAsked])).1

/-- The accept of the first fingerprint, given twice, accepts the second. -/
theorem accept_replayed :
    ¬ TrustFresh Unit [.ask (.trust "ab:cd"), .answerTrust true, .wake, .answerTrust true,
      .ask (.trust "66:66"), .wake] := by
  intro h
  obtain ⟨before, q, since, heq, hmid, hacc⟩ := h
    [.ask (.trust "ab:cd"), .answerTrust true, .wake, .answerTrust true, .ask (.trust "66:66")] [] rfl
    ⟨_, _, _, rfl, rfl, rfl⟩
  have hlast : [.ask (.trust "ab:cd"), .answerTrust true, .wake, .answerTrust true] ++ [.ask (.trust "66:66")] =
      before ++ .ask q :: since := heq
  rw [ask_last hlast hmid] at hacc
  cases hacc

end Act

end Vento.Runtime
