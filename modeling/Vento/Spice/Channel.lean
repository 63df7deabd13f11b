import Vento.Lib.Runs
import Mathlib.Algebra.Ring.Nat
import Mathlib.Data.List.Infix
import Mathlib.Tactic.Ring
/-!
# Acknowledgements

`spice/src/channel.rs` and the two calls of it in `client.rs`: every message that
arrives on a channel counts, a window of them is acknowledged at a time, and a
session that is off the screen withholds its acknowledgements until it is back.
The counter has 32 bits and the code adds to it without a check.
-/

namespace Vento.Spice

/-- What a channel sends by itself. -/
inductive Sent where
  | ack
  | ackSync (generation : UInt32)
deriving DecidableEq, Repr

structure Channel where
  ackWindow : Nat
  sinceAck : Nat
  paused : Bool
  /-- What has been sent so far. -/
  sent : List Sent
deriving DecidableEq, Repr

namespace Channel

def new : Channel := ⟨0, 0, false, []⟩

def send (s : Channel) (m : Sent) : Channel := { s with sent := s.sent ++ [m] }

/-- Count a message towards the window and answer when it is full. -/
def acknowledge (s : Channel) : Channel :=
  let s := { s with sinceAck := (s.sinceAck + 1) % 2 ^ 32 }
  if s.ackWindow > 0 ∧ !s.paused ∧ s.sinceAck ≥ s.ackWindow then { s with sinceAck := 0 }.send .ack else s

/-- Stop or resume acking: what came in the meantime is acknowledged on resume,
whole windows only. -/
def setPaused (s : Channel) (paused : Bool) : Channel :=
  if s.paused ∧ !paused ∧ s.ackWindow > 0 then
    { s with paused, sinceAck := s.sinceAck % s.ackWindow,
             sent := s.sent ++ List.replicate (s.sinceAck / s.ackWindow) .ack }
  else { s with paused }

/-- A `SET_ACK`: counted, like every message, before it takes effect. -/
def setAck (s : Channel) (generation window : UInt32) : Channel :=
  { s.acknowledge with ackWindow := window.toNat }.send (.ackSync generation)

inductive Act where
  | setAck (generation window : UInt32)
  /-- Any other message. -/
  | message
  | setPaused (paused : Bool)
deriving DecidableEq, Repr

def step (s : Channel) : Act → Channel
  | .setAck generation window => s.setAck generation window
  | .message => s.acknowledge
  | .setPaused paused => s.setPaused paused

def after (s : Channel) (as : List Act) : Channel := as.foldl step s

/-- The acknowledgements sent so far. -/
def acks (s : Channel) : Nat := s.sent.count .ack

/-- The messages among some acts. -/
def received (as : List Act) : Nat := as.countP fun a => !(a matches .setPaused _)

/-! ## One act -/

/-- A message is counted, or it fills a window that is acknowledged. -/
theorem acknowledge_cases (s : Channel) :
    (s.acknowledge = { s with sinceAck := (s.sinceAck + 1) % 2 ^ 32 } ∧
      (0 < s.ackWindow → s.paused = false → (s.sinceAck + 1) % 2 ^ 32 < s.ackWindow)) ∨
    (s.acknowledge = { s with sinceAck := 0, sent := s.sent ++ [.ack] } ∧ s.paused = false ∧
      s.ackWindow ≤ (s.sinceAck + 1) % 2 ^ 32) := by
  unfold acknowledge
  dsimp only
  split
  · rename_i h
    exact .inr ⟨rfl, by simpa using h.2.1, h.2.2⟩
  · rename_i h
    refine .inl ⟨rfl, fun hw hp => ?_⟩
    by_contra hge
    exact h ⟨hw, by simp [hp], by omega⟩

/-- Nothing but the flag changes, or the withheld windows are acknowledged. -/
theorem setPaused_cases (s : Channel) (paused : Bool) :
    (s.setPaused paused = { s with paused } ∧ (0 < s.ackWindow → paused = false → s.paused = false)) ∨
    (s.setPaused paused = { s with paused, sinceAck := s.sinceAck % s.ackWindow,
                                   sent := s.sent ++ List.replicate (s.sinceAck / s.ackWindow) .ack } ∧
      0 < s.ackWindow) := by
  unfold setPaused
  split
  · rename_i h
    exact .inr ⟨rfl, h.2.2⟩
  · rename_i h
    refine .inl ⟨rfl, fun hw hp => ?_⟩
    by_contra hs
    exact h ⟨by simpa using hs, by simp [hp], hw⟩

/-- The messages acknowledged and counted together. -/
def accounted (s : Channel) : Nat := s.acks * s.ackWindow + s.sinceAck

/-- The count is short of a window while acknowledgements are not withheld. -/
def Calm (s : Channel) : Prop := s.paused = false → s.sinceAck < s.ackWindow

/-- The counter has room for one more. -/
def HasRoom (s : Channel) : Prop := s.sinceAck + 1 < 2 ^ 32

theorem accounted_ack (s : Channel) :
    accounted { s with sinceAck := 0, sent := s.sent ++ [.ack] } = s.acks * s.ackWindow + s.ackWindow := by
  simp only [accounted, acks, List.count_append, List.count_singleton, beq_self_eq_true, if_true]
  ring

theorem accounted_resume (s : Channel) (paused : Bool) :
    accounted { s with paused, sinceAck := s.sinceAck % s.ackWindow,
                       sent := s.sent ++ List.replicate (s.sinceAck / s.ackWindow) .ack } = s.accounted := by
  have h := Nat.div_add_mod s.sinceAck s.ackWindow
  simp only [accounted, acks, List.count_append, List.count_replicate_self]
  calc (s.sent.count .ack + s.sinceAck / s.ackWindow) * s.ackWindow + s.sinceAck % s.ackWindow
      = s.sent.count .ack * s.ackWindow + (s.ackWindow * (s.sinceAck / s.ackWindow) + s.sinceAck % s.ackWindow) := by ring
    _ = s.sent.count .ack * s.ackWindow + s.sinceAck := by rw [h]

/-- How many messages an act is. -/
def Act.weight : Act → Nat
  | .setPaused _ => 0
  | _ => 1

theorem received_cons (a : Act) (as : List Act) : received (a :: as) = a.weight + received as := by
  cases a <;> simp [received, Act.weight, Nat.add_comm]

theorem step_window (s : Channel) (a : Act) (ha : ∀ generation window, a ≠ .setAck generation window) :
    (s.step a).ackWindow = s.ackWindow := by
  cases a with
  | setAck generation window => exact absurd rfl (ha generation window)
  | message =>
    rw [step]
    rcases acknowledge_cases s with ⟨h, -⟩ | ⟨h, -⟩
    · rw [h]
    · rw [h]
  | setPaused paused =>
    rw [step]
    rcases setPaused_cases s paused with ⟨h, -⟩ | ⟨h, -⟩
    · rw [h]
    · rw [h]

/-- No act accounts for a message that did not come. -/
theorem step_accounted_le (s : Channel) (a : Act) (ha : ∀ generation window, a ≠ .setAck generation window) :
    (s.step a).accounted ≤ s.accounted + a.weight := by
  cases a with
  | setAck generation window => exact absurd rfl (ha generation window)
  | message =>
    have hmod := Nat.mod_le (s.sinceAck + 1) (2 ^ 32)
    rw [step]
    rcases acknowledge_cases s with ⟨h, -⟩ | ⟨h, -, hfull⟩
    · rw [h]
      simp only [accounted, acks, Act.weight]
      omega
    · rw [h, accounted_ack]
      simp only [accounted, Act.weight]
      omega
  | setPaused paused =>
    rw [step]
    rcases setPaused_cases s paused with ⟨h, -⟩ | ⟨h, -⟩
    · rw [h]
      exact Nat.le_refl _
    · rw [h, accounted_resume]
      exact Nat.le_refl _

/-- Every message is accounted for while the count is short of a window and has
room, and it stays short of one. -/
theorem step_accounted {s : Channel} (a : Act) (ha : ∀ generation window, a ≠ .setAck generation window)
    (hw : 0 < s.ackWindow) (hcalm : Calm s) (hroom : HasRoom s) :
    (s.step a).accounted = s.accounted + a.weight ∧ Calm (s.step a) := by
  cases a with
  | setAck generation window => exact absurd rfl (ha generation window)
  | message =>
    have hmod : (s.sinceAck + 1) % 2 ^ 32 = s.sinceAck + 1 := Nat.mod_eq_of_lt hroom
    rw [step]
    rcases acknowledge_cases s with ⟨h, hshort⟩ | ⟨h, hpaused, hfull⟩
    · rw [h]
      exact ⟨by simp only [accounted, acks, Act.weight, hmod]; omega, hshort hw⟩
    · have hlt := hcalm hpaused
      rw [h]
      refine ⟨?_, fun _ => hw⟩
      rw [accounted_ack]
      simp only [accounted, Act.weight]
      omega
  | setPaused paused =>
    rw [step]
    rcases setPaused_cases s paused with ⟨h, hsame⟩ | ⟨h, hpos⟩
    · rw [h]
      exact ⟨rfl, fun hp => hcalm (hsame hw hp)⟩
    · rw [h]
      exact ⟨accounted_resume s paused, fun _ => Nat.mod_lt _ hpos⟩

/-! ## Whole runs -/

def NoSetAck (as : List Act) : Prop := ∀ generation window, Act.setAck generation window ∉ as

theorem NoSetAck.head {a : Act} {as : List Act} (h : NoSetAck (a :: as)) :
    ∀ generation window, a ≠ .setAck generation window :=
  fun generation window he => h generation window (by simp [he])

theorem NoSetAck.tail {a : Act} {as : List Act} (h : NoSetAck (a :: as)) : NoSetAck as :=
  fun generation window hm => h generation window (List.mem_cons_of_mem _ hm)

/-- The counter has room at every message of a run. -/
def Roomy (s : Channel) (as : List Act) : Prop := ∀ before, before <+: as → HasRoom (s.after before)

theorem Roomy.head {s : Channel} {as : List Act} (h : Roomy s as) : HasRoom s := h [] List.nil_prefix

theorem Roomy.tail {s : Channel} {a : Act} {as : List Act} (h : Roomy s (a :: as)) : Roomy (s.step a) as :=
  fun before hb => h (a :: before) (List.prefix_cons_inj a |>.2 hb)

theorem after_cons (s : Channel) (a : Act) (as : List Act) : s.after (a :: as) = (s.step a).after as := rfl

theorem after_window (s : Channel) {as : List Act} (h : NoSetAck as) : (s.after as).ackWindow = s.ackWindow := by
  induction as generalizing s with
  | nil => rfl
  | cons a as ih => rw [after_cons, ih _ h.tail, step_window s a h.head]

theorem after_accounted_le (s : Channel) {as : List Act} (h : NoSetAck as) :
    (s.after as).accounted ≤ s.accounted + received as := by
  induction as generalizing s with
  | nil => exact Nat.le_refl _
  | cons a as ih =>
    have hstep := step_accounted_le s a h.head
    have hrest := ih (s.step a) h.tail
    rw [after_cons, received_cons]
    omega

theorem after_accounted {s : Channel} {as : List Act} (h : NoSetAck as) (hw : 0 < s.ackWindow) (hcalm : Calm s)
    (hroom : Roomy s as) : (s.after as).accounted = s.accounted + received as ∧ Calm (s.after as) := by
  induction as generalizing s with
  | nil => exact ⟨rfl, hcalm⟩
  | cons a as ih =>
    obtain ⟨hstep, hcalm'⟩ := step_accounted a h.head hw hcalm hroom.head
    obtain ⟨hrest, hlast⟩ := ih h.tail (by rw [step_window s a h.head]; exact hw) hcalm' hroom.tail
    refine ⟨?_, hlast⟩
    rw [after_cons, received_cons]
    omega

theorem step_acks_le (s : Channel) (a : Act) : s.acks ≤ (s.step a).acks := by
  have hmessage : s.acks ≤ s.acknowledge.acks := by
    rcases acknowledge_cases s with ⟨h, -⟩ | ⟨h, -⟩
    · rw [h]
      exact Nat.le_refl _
    · rw [h]
      simp [acks]
  cases a with
  | setAck generation window =>
    refine hmessage.trans ?_
    simp [step, setAck, send, acks]
  | message => exact hmessage
  | setPaused paused =>
    rw [step]
    rcases setPaused_cases s paused with ⟨h, -⟩ | ⟨h, -⟩
    · rw [h]
      exact Nat.le_refl _
    · rw [h]
      simp [acks]

theorem after_acks_le (s : Channel) (as : List Act) : s.acks ≤ (s.after as).acks := by
  induction as generalizing s with
  | nil => exact Nat.le_refl _
  | cons a as ih => exact (step_acks_le s a).trans (ih _)

/-- What is left unacknowledged of the messages since `s` is short of a window:
from a calm channel. -/
theorem unacknowledged_calm {s : Channel} {as : List Act} (h : NoSetAck as) (hw : 0 < s.ackWindow) (hcalm : Calm s)
    (hroom : Roomy s as) (hpaused : (s.after as).paused = false) :
    s.sinceAck + s.acks * s.ackWindow + received as < (s.after as).acks * s.ackWindow + s.ackWindow := by
  obtain ⟨haccounted, hlast⟩ := after_accounted h hw hcalm hroom
  have hlt := hlast hpaused
  simp only [accounted, after_window s h] at haccounted hlt
  omega

/-- The same from any channel: one with a window or more on its count, which a
new window can leave it with, acknowledges at the first message. -/
theorem unacknowledged {s : Channel} {as : List Act} (h : NoSetAck as) (hw : 0 < s.ackWindow) (hroom : Roomy s as)
    (hpaused : (s.after as).paused = false) :
    s.acks * s.ackWindow + received as < (s.after as).acks * s.ackWindow + s.ackWindow := by
  by_cases hcalm : Calm s
  · have := unacknowledged_calm h hw hcalm hroom hpaused
    omega
  · simp only [Calm, Classical.not_imp, Nat.not_lt] at hcalm
    obtain ⟨hp, hfull⟩ := hcalm
    induction as with
    | nil => simpa [after, received] using hw
    | cons a as ih =>
      have hw' : 0 < (s.step a).ackWindow := by rw [step_window s a h.head]; exact hw
      rw [after_cons] at hpaused ⊢
      cases a with
      | setAck generation window => exact absurd rfl (h.head generation window)
      | message =>
        have hmod : (s.sinceAck + 1) % 2 ^ 32 = s.sinceAck + 1 := Nat.mod_eq_of_lt hroom.head
        rcases acknowledge_cases s with ⟨-, hshort⟩ | ⟨hs, -⟩
        · have := hshort hw hp
          omega
        · have hcalm' : Calm (s.step .message) := by
            rw [step, hs]
            exact fun _ => hw
          have hrest := unacknowledged_calm h.tail hw' hcalm' hroom.tail hpaused
          have hacks : (s.step .message).acks = s.acks + 1 := by
            rw [step, hs]
            simp [acks]
          rw [step_window s .message h.head, hacks, Nat.add_mul] at hrest
          rw [received_cons, show Act.message.weight = 1 from rfl]
          omega
      | setPaused paused =>
        have hs : s.step (.setPaused paused) = { s with paused } := by simp [step, setPaused, hp]
        rw [received_cons, show (Act.setPaused paused).weight = 0 from rfl, Nat.zero_add]
        cases paused with
        | false =>
          have hsame : s.step (.setPaused false) = s := by rw [hs, ← hp]
          rw [hsame] at hpaused ⊢
          exact ih h.tail (by simpa only [hsame] using hroom.tail) hpaused
        | true =>
          -- withheld from here on, so the count may be as large as it is
          have hcalm' : Calm (s.step (.setPaused true)) := by
            rw [hs]
            intro hfalse
            cases hfalse
          have hrest := unacknowledged_calm h.tail hw' hcalm' hroom.tail hpaused
          rw [step_window s _ h.head] at hrest
          have hacks : (s.step (.setPaused true)).acks = s.acks := by rw [hs]; rfl
          rw [hacks] at hrest
          omega

/-- The acknowledgements for a window are no more than the messages from its
`SET_ACK` on, which counts itself, unless others were on the count before it;
and while they are not withheld less than a window is left, as long as the
counter has room. -/
theorem acknowledged (before since : List Act) (generation window : UInt32) (hlast : NoSetAck since) :
    let set := (new.after before).setAck generation window
    ∃ acks, (set.after since).acks = set.acks + acks ∧
      (set.sinceAck ≤ 1 → acks * window.toNat ≤ 1 + received since) ∧
      (0 < window.toNat → Roomy set since → (set.after since).paused = false →
        received since < acks * window.toNat + window.toNat) := by
  intro set
  have hwindow : set.ackWindow = window.toNat := rfl
  have hle := after_acks_le set since
  refine ⟨(set.after since).acks - set.acks, by omega, ?_, ?_⟩
  · intro hcount
    have h := after_accounted_le set hlast
    simp only [accounted, after_window set hlast, hwindow] at h
    rw [Nat.sub_mul]
    omega
  · intro hpos hroom hpaused
    have h := unacknowledged hlast (hwindow ▸ hpos) hroom hpaused
    rw [hwindow] at h
    rw [Nat.sub_mul]
    omega

/-- A first `SET_ACK` of three, then two messages: the third counts to the
acknowledgement. -/
theorem acknowledged_three :
    let set := new.setAck 1 3
    set.sinceAck ≤ 1 ∧ ∃ acks, (set.after [.message, .message]).acks = set.acks + acks ∧ acks * 3 ≤ 1 + 2 := by
  obtain ⟨acks, hacks, hle, -⟩ := acknowledged [] [.message, .message] 1 3 (by simp [NoSetAck])
  exact ⟨by decide, acks, hacks, hle (by decide)⟩

/-- An acknowledgement of three messages where two came after the `SET_ACK`. -/
theorem acknowledged_early :
    let set := new.setAck 1 3
    ((set.after [.message, .message]).acks - set.acks) * 3 > received [.message, .message] := by
  decide

end Channel

end Vento.Spice
