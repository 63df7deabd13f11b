import Vento.Spice.Flow
/-!
# Who owns the clipboard

The two ends take the clipboard from each other by grabs. `Ledger` is the agent
together with what the guest knows: the text of the last grab that was queued
for it since it came up, unless it has grabbed the clipboard itself since.

The agent's flag says the same where two things do not happen, which the code
does not guard against: an agent that comes up again while a text is offered is
taken to know it, and a grab of the guest's that has no text in it leaves the
offer standing. Nor does the code look at what a request asks for.
-/

namespace Vento.Spice.Agent

open Vento.Lib

/-! ## One message or call at a time -/

inductive Act where
  | connected (tokens : UInt32)
  | disconnected
  | addTokens (tokens : UInt32)
  | nextPiece
  | offerClipboard (text : Text)
  | requestMonitors (monitors : List Monitor)
  | message (type : Nat) (payload : List UInt8)
deriving DecidableEq, Repr

def perform (s : Agent) : Act → Agent
  | .connected tokens => s.connected tokens
  | .disconnected => s.disconnected
  | .addTokens tokens => s.addTokens tokens
  | .nextPiece => s.nextPiece.1
  | .offerClipboard text => s.offerClipboard text
  | .requestMonitors monitors => s.requestMonitors monitors
  | .message type payload => (s.message type payload).1

/-- The messages an act queues. -/
def queuedBy (s : Agent) (a : Act) : List Outgoing := (s.perform a).queued.drop s.queued.length

/-- The acts of some messages, given by their types and bodies. -/
def messages (ms : List (Nat × List UInt8)) : List Act := ms.map fun m => .message m.1 m.2

theorem messages_hold (ms : List (Nat × List UInt8)) (s : Agent) (i : List UInt8) (k : Nat) :
    (messages ms).foldl perform (s.hold i k) = ((messages ms).foldl perform s).hold i k := by
  induction ms generalizing s with
  | nil => rfl
  | cons m ms ih =>
    simp only [messages, List.map_cons, List.foldl_cons, perform, message_hold] at ih ⊢
    exact ih _

theorem drain_performs (s : Agent) : ∃ ms i k, s.drain.1 = ((messages ms).foldl perform s).hold i k := by
  fun_induction drain s with
  | case1 s _ => exact ⟨[], s.inbound, s.skipping, rfl⟩
  | case2 s _ _ => exact ⟨[], [], s.skipping, rfl⟩
  | case3 s _ _ _ _ here ih =>
    obtain ⟨ms, i, k, h⟩ := ih
    refine ⟨ms, i, k, ?_⟩
    rw [h, messages_hold]
    rfl
  | case4 s _ _ _ _ _ => exact ⟨[], s.inbound, s.skipping, rfl⟩
  | case5 s _ size _ _ _ payload r r' ih =>
    obtain ⟨ms, i, k, h⟩ := ih
    refine ⟨(word s.inbound 4, payload) :: ms, i, k, ?_⟩
    have hr : r.1 = (s.perform (.message (word s.inbound 4) payload)).hold (s.inbound.drop (header + size)) s.skipping :=
      congrArg Prod.fst (message_hold s (word s.inbound 4) payload _ _)
    change r.1.drain.1 = _
    rw [h, hr, messages_hold]
    rfl

/-- Whatever arrives in a piece, it comes to some messages, one after another. -/
theorem receive_performs (s : Agent) (body : List UInt8) :
    ∃ ms i k, (s.receive body).1 = ((messages ms).foldl perform s).hold i k := by
  obtain ⟨ms, i, k, h⟩ := drain_performs (s.hold (s.inbound ++ body.drop (min s.skipping body.length))
    (s.skipping - min s.skipping body.length))
  refine ⟨ms, i, k, ?_⟩
  rw [receive, h, messages_hold]
  rfl

/-! ## What the guest knows -/

/-- A request for text from the clipboard. -/
def asksText (s : Agent) (payload : List UInt8) : Bool :=
  s.isClipboardSelection payload && (words (s.afterSelection payload)).head? == some utf8Text

/-- Text is among what the guest grabs with. -/
def hasText (s : Agent) (payload : List UInt8) : Bool := (words (s.afterSelection payload)).any (· == utf8Text)

/-- The guest takes the clipboard: with any grab of it, or, where `any` is not
set, with one that has text. -/
def takesOver (any : Bool) (s : Agent) : Act → Bool
  | .message type payload =>
    type == Message.clipboardGrab && s.isClipboardSelection payload && (any || s.hasText payload)
  | _ => false

/-- The agent and the text the guest knows to be here. -/
structure Ledger where
  agent : Agent
  known : Option Text

def Ledger.start : Ledger := ⟨new, none⟩

/-- What the guest knows after an act: nothing once it comes up, goes away or
takes the clipboard, and the local text once a grab of it is queued. -/
def knownAfter (any : Bool) (s : Agent) (known : Option Text) (a : Act) : Option Text :=
  match a with
  | .connected _ => none
  | .disconnected => none
  | a =>
    if takesOver any s a then none
    else if (s.queuedBy a).any (·.type == Message.clipboardGrab) then (s.perform a).ours
    else known

def Ledger.step (any : Bool) (g : Ledger) (a : Act) : Option Ledger :=
  some ⟨g.agent.perform a, knownAfter any g.agent g.known a⟩

/-- An act that sends the local text. -/
def sendsText (s : Agent) (a : Act) : Bool := (s.queuedBy a).any (·.type == Message.clipboard)

/-- The flag is right, text that is here is known where the guest has a
clipboard, and it is sent in answer to a request for it alone. -/
structure Owned (any : Bool) (as : List Act) : Prop where
  offered : ∀ g, run (Ledger.step any) .start as = some g → g.agent.offered = true →
    ∃ text, g.agent.ours = some text ∧ g.known = some text
  told : ∀ g, run (Ledger.step any) .start as = some g → g.agent.hasClipboard = true →
    ∀ text, g.agent.ours = some text → g.known = some text
  asked : ∀ before a g, as = before ++ [a] → run (Ledger.step any) .start before = some g →
    g.agent.sendsText a = true → ∃ payload, a = .message Message.clipboardRequest payload ∧
      g.agent.asksText payload = true ∧ g.agent.offered = true

/-- The agent comes up with nothing offered; a request that finds text here is
for the text that is offered; and a grab that takes an offered clipboard has
text, where those without count. -/
def Proper (any : Bool) (g : Ledger) : Act → Prop
  | .connected _ => g.agent.offered = false
  | .message type payload =>
    (type = Message.clipboardRequest → g.agent.ours ≠ none →
      g.agent.asksText payload = true ∧ g.agent.offered = true) ∧
    (any = true → type = Message.clipboardGrab → g.agent.offered = true →
      g.agent.isClipboardSelection payload = true → g.agent.hasText payload = true)
  | _ => True

/-! ## What each act does to the offer -/

/-- Nothing is told, for there is nothing to tell or nobody to tell it to; or a
grab is queued, for a text that was not offered before. -/
theorem grab_cases (s : Agent) :
    (s.grab = s ∧ (s.hasClipboard = true → s.ours ≠ none → s.offered = true)) ∨
    (s.hasClipboard = true ∧ s.ours ≠ none ∧ ∃ body, s.grab = { s with offered := true }.queue Message.clipboardGrab body) := by
  unfold grab
  split
  · rename_i h
    refine .inl ⟨rfl, fun hclip hours => ?_⟩
    simp only [Bool.or_eq_true, Bool.not_eq_true', Option.isNone_iff_eq_none] at h
    rcases h with (h | h) | h
    · exact h
    · rw [hclip] at h
      cases h
    · exact absurd h hours
  · rename_i h
    simp only [Bool.or_eq_true, Bool.not_eq_true', Option.isNone_iff_eq_none, not_or, Bool.not_eq_false] at h
    exact .inr ⟨h.1.2, h.2, _, rfl⟩

/-- A message of the type was queued between the two. -/
def queuesType (s t : Agent) (type : Nat) : Bool := (t.queued.drop s.queued.length).any (·.type == type)

/-- What the guest knows once the messages that were queued between the two are its. -/
def knownOver (s t : Agent) (known : Option Text) : Option Text :=
  if s.queuesType t Message.clipboardGrab then t.ours else known

/-- What is queued, past what was. -/
theorem any_queued {s t : Agent} {type : Nat} (ms : List Outgoing) (hq : t.queued = s.queued ++ ms)
    (hms : ∀ m ∈ ms, m.type ≠ type) : s.queuesType t type = false := by
  unfold queuesType
  rw [hq, List.drop_left]
  simpa using hms

/-- The flag and what the guest knows agree, and text that is here is offered
where there is a clipboard. -/
structure Agrees (s : Agent) (known : Option Text) : Prop where
  offered : s.offered = true → s.ours ≠ none ∧ known = s.ours
  told : s.hasClipboard = true → s.ours ≠ none → s.offered = true

/-- A text that was not offered is told by a grab, if the guest can be told;
`ms` was queued before it. -/
theorem grab_agrees {s u : Agent} {known : Option Text} (ms : List Outgoing) (hq : s.queued = u.queued ++ ms)
    (hms : ∀ m ∈ ms, m.type ≠ Message.clipboardGrab) (h : s.offered = true → s.ours ≠ none ∧ known = s.ours) :
    Agrees s.grab (u.knownOver s.grab known) := by
  rcases grab_cases s with ⟨hs, htold⟩ | ⟨-, hours, body, hs⟩
  · unfold knownOver
    rw [hs, any_queued ms hq hms, if_neg Bool.false_ne_true]
    exact ⟨h, htold⟩
  · have hsome : u.queuesType s.grab Message.clipboardGrab = true := by
      unfold queuesType
      rw [hs, queue]
      simp only [hq, List.append_assoc, List.drop_left]
      simp
    unfold knownOver
    rw [if_pos hsome, hs]
    exact ⟨fun _ => ⟨hours, rfl⟩, fun _ _ => rfl⟩

/-- An act that leaves the offer alone and queues no grab. -/
theorem Agrees.of_eq {s t : Agent} {known : Option Text} (h : Agrees s known) (ms : List Outgoing)
    (ho : t.offered = s.offered) (hu : t.ours = s.ours) (hc : t.hasClipboard = s.hasClipboard)
    (hq : t.queued = s.queued ++ ms) (hms : ∀ m ∈ ms, m.type ≠ Message.clipboardGrab) :
    Agrees t (s.knownOver t known) := by
  unfold knownOver
  rw [any_queued ms hq hms, if_neg Bool.false_ne_true]
  refine ⟨?_, ?_⟩
  · rw [ho, hu]
    exact h.offered
  · rw [hc, hu, ho]
    exact h.told

/-- An act that changes nothing of the kind. -/
theorem Agrees.same {s t : Agent} {known : Option Text} (h : Agrees s known) (ho : t.offered = s.offered)
    (hu : t.ours = s.ours) (hc : t.hasClipboard = s.hasClipboard) (hq : t.queued = s.queued) :
    Agrees t (s.knownOver t known) :=
  h.of_eq [] ho hu hc (hq.trans (List.append_nil _).symm) (fun _ hm => by cases hm)

theorem offerClipboard_agrees {s : Agent} {known : Option Text} (h : Agrees s known) (text : Text) :
    Agrees (s.offerClipboard text) (s.knownOver (s.offerClipboard text) known) := by
  unfold offerClipboard
  split
  · exact h.same rfl rfl rfl rfl
  · split
    · exact h.same rfl rfl rfl rfl
    · apply grab_agrees (s := { s with ours := some text, offered := false }) [] (List.append_nil _).symm
      · intro m hm
        cases hm
      · intro ho
        cases ho

theorem announced_agrees {s : Agent} {known : Option Text} (h : Agrees s known) (payload : List UInt8) :
    Agrees (s.announced payload).1 (s.knownOver (s.announced payload).1 known) := by
  unfold announced
  split
  · exact h.same rfl rfl rfl rfl
  · dsimp only
    split
    · refine grab_agrees (s := announce _ _) [⟨Message.announceCapabilities, _⟩] rfl ?_ h.offered
      intro m hm
      rw [List.mem_singleton.1 hm]
      decide
    · refine grab_agrees (s := { s with caps := _ }) [] (List.append_nil _).symm ?_ h.offered
      intro m hm
      cases hm

theorem requested_agrees {s : Agent} {known : Option Text} (h : Agrees s known) :
    Agrees s.requested (s.knownOver s.requested known) := by
  unfold requested
  split
  · refine h.of_eq [⟨Message.clipboard, _⟩] rfl rfl rfl rfl ?_
    intro m hm
    rw [List.mem_singleton.1 hm]
    exact (by decide : Message.clipboard ≠ Message.clipboardGrab)
  · refine h.of_eq [⟨Message.clipboardRelease, _⟩] rfl rfl rfl rfl ?_
    intro m hm
    rw [List.mem_singleton.1 hm]
    exact (by decide : Message.clipboardRelease ≠ Message.clipboardGrab)

/-- A grab of the guest's leaves nothing offered, or nothing changed. -/
theorem grabbed_cases (s : Agent) (payload : List UInt8) :
    (s.isClipboardSelection payload = true ∧ s.hasText payload = true ∧ (s.grabbed payload).offered = false ∧
      (s.grabbed payload).ours = none) ∨
    ((s.isClipboardSelection payload = true → s.hasText payload = false) ∧ s.grabbed payload = s) := by
  unfold grabbed
  dsimp only
  split
  · rename_i h
    refine .inr ⟨fun hsel => ?_, rfl⟩
    simpa [hsel, hasText] using h
  · rename_i h
    simp only [Bool.or_eq_true, Bool.not_eq_true', not_or, Bool.not_eq_false] at h
    exact .inl ⟨h.1, h.2, rfl, rfl⟩

theorem knownAfter_message (any : Bool) (s : Agent) (known : Option Text) (type : Nat) (payload : List UInt8) :
    knownAfter any s known (.message type payload) =
      if takesOver any s (.message type payload) then none
      else s.knownOver (s.message type payload).1 known := rfl

theorem grabbed_agrees {any : Bool} {g : Ledger} (h : Agrees g.agent g.known) (payload : List UInt8)
    (hok : Proper any g (.message Message.clipboardGrab payload)) :
    Agrees (g.agent.grabbed payload) (knownAfter any g.agent g.known (.message Message.clipboardGrab payload)) := by
  have hmessage : (g.agent.message Message.clipboardGrab payload).1 = g.agent.grabbed payload := rfl
  rw [knownAfter_message, hmessage]
  rcases grabbed_cases g.agent payload with ⟨hsel, htext, ho, hu⟩ | ⟨hsel, hs⟩
  · rw [if_pos (by simp [takesOver, hsel, htext])]
    refine ⟨fun ho' => ?_, fun _ hu' => absurd hu hu'⟩
    rw [ho] at ho'
    cases ho'
  · rw [hs]
    split
    · -- a grab without text, where those count: nothing was offered then
      rename_i htake
      simp only [takesOver, beq_self_eq_true, Bool.true_and, Bool.and_eq_true, Bool.or_eq_true] at htake
      obtain ⟨htsel, htake⟩ := htake
      have htext := hsel htsel
      have hany : any = true := by simpa [htext] using htake
      refine ⟨fun ho => ?_, h.told⟩
      have := hok.2 hany rfl ho htsel
      rw [htext] at this
      cases this
    · exact h.same rfl rfl rfl rfl

/-- A message that is no grab. -/
theorem message_agrees {any : Bool} {s : Agent} {known : Option Text} (h : Agrees s known) {type : Nat}
    (htype : type ≠ Message.clipboardGrab) (payload : List UInt8) :
    Agrees (s.message type payload).1 (knownAfter any s known (.message type payload)) := by
  rw [knownAfter_message, if_neg (by simp [takesOver, htype])]
  unfold message
  split
  · exact announced_agrees h payload
  · split
    · exact h.same rfl rfl rfl rfl
    · split
      · exact requested_agrees h
      · exact h.same rfl rfl rfl rfl

theorem nextPiece_agrees {s : Agent} {known : Option Text} (h : Agrees s known) :
    Agrees s.nextPiece.1 (s.knownOver s.nextPiece.1 known) := by
  rcases nextPiece_cases s with hs | ⟨piece, outbound, -, -, hs⟩
  · rw [hs]
    exact h.same rfl rfl rfl rfl
  · rw [hs]
    exact h.same rfl rfl rfl rfl

theorem requestMonitors_agrees {s : Agent} {known : Option Text} (h : Agrees s known) (monitors : List Monitor) :
    Agrees (s.requestMonitors monitors) (s.knownOver (s.requestMonitors monitors) known) := by
  unfold requestMonitors
  split
  · exact h.same rfl rfl rfl rfl
  · refine h.of_eq [⟨Message.monitorsConfig, _⟩] rfl rfl rfl rfl ?_
    intro m hm
    rw [List.mem_singleton.1 hm]
    exact (by decide : Message.monitorsConfig ≠ Message.clipboardGrab)

theorem step_agrees {any : Bool} {g : Ledger} (h : Agrees g.agent g.known) {a : Act} (hok : Proper any g a) :
    Agrees (g.agent.perform a) (knownAfter any g.agent g.known a) := by
  cases a with
  | connected tokens =>
    refine ⟨fun ho => ?_, fun hc => ?_⟩
    · rw [show (g.agent.perform (.connected tokens)).offered = g.agent.offered from rfl, hok] at ho
      cases ho
    · exact absurd hc (by decide : ¬ (true && ((0 : UInt32) &&& 1 <<< Cap.clipboardByDemand != 0)) = true)
  | disconnected =>
    refine ⟨fun ho => ?_, fun hc => ?_⟩
    · cases ho
    · cases hc
  | addTokens tokens => exact h.same rfl rfl rfl rfl
  | nextPiece => exact nextPiece_agrees h
  | offerClipboard text => exact offerClipboard_agrees h text
  | requestMonitors monitors => exact requestMonitors_agrees h monitors
  | message type payload =>
    rcases eq_or_ne type Message.clipboardGrab with rfl | htype
    · exact grabbed_agrees h payload hok
    · exact message_agrees h htype payload

/-! ## What is sent -/

theorem grab_sends {s u : Agent} (ms : List Outgoing) (hq : s.queued = u.queued ++ ms)
    (hms : ∀ m ∈ ms, m.type ≠ Message.clipboard) : u.queuesType s.grab Message.clipboard = false := by
  rcases grab_cases s with ⟨hs, -⟩ | ⟨-, -, body, hs⟩
  · rw [hs]
    exact any_queued ms hq hms
  · refine any_queued (ms ++ [⟨Message.clipboardGrab, body⟩]) ?_ ?_
    · rw [hs, queue, ← List.append_assoc, ← hq]
    · intro m hm
      rcases List.mem_append.1 hm with hm | hm
      · exact hms m hm
      · rw [List.mem_singleton.1 hm]
        exact (by decide : Message.clipboardGrab ≠ Message.clipboard)

theorem announced_sends (s : Agent) (payload : List UInt8) :
    s.queuesType (s.announced payload).1 Message.clipboard = false := by
  unfold announced
  split
  · exact any_queued [] (List.append_nil _).symm (fun _ hm => by cases hm)
  · dsimp only
    split
    · refine grab_sends (s := announce _ _) [⟨Message.announceCapabilities, _⟩] rfl ?_
      intro m hm
      rw [List.mem_singleton.1 hm]
      decide
    · exact grab_sends (s := { s with caps := _ }) [] (List.append_nil _).symm (fun _ hm => by cases hm)

theorem grabbed_sends (s : Agent) (payload : List UInt8) :
    s.queuesType (s.grabbed payload) Message.clipboard = false := by
  unfold grabbed
  dsimp only
  split
  · exact any_queued [] (List.append_nil _).symm (fun _ hm => by cases hm)
  · refine any_queued [⟨Message.clipboardRequest, _⟩] rfl ?_
    intro m hm
    rw [List.mem_singleton.1 hm]
    exact (by decide : Message.clipboardRequest ≠ Message.clipboard)

theorem requested_sends (s : Agent) : s.queuesType s.requested Message.clipboard = s.ours.isSome := by
  unfold queuesType requested
  split
  · rename_i text hours
    rw [hours, queue]
    simp
  · rename_i hours
    rw [hours, queue]
    simpa using (by decide : Message.clipboardRelease ≠ Message.clipboard)

/-- Only a request is answered with the text, and every request that finds one
is. -/
theorem sendsText_iff (s : Agent) (a : Act) :
    s.sendsText a = true ↔ ∃ payload, a = .message Message.clipboardRequest payload ∧ s.ours ≠ none := by
  have hnothing : ∀ t : Agent, t.queued = s.queued → s.queuesType t Message.clipboard = false :=
    fun t ht => any_queued [] (ht.trans (List.append_nil _).symm) (fun _ hm => by cases hm)
  have hfalse : ∀ a, s.sendsText a = false → (∀ payload, a ≠ .message Message.clipboardRequest payload) →
      (s.sendsText a = true ↔ ∃ payload, a = .message Message.clipboardRequest payload ∧ s.ours ≠ none) := by
    intro a hsends hne
    rw [hsends]
    refine ⟨fun h => ?_, ?_⟩
    · cases h
    · rintro ⟨payload, ha, -⟩
      exact absurd ha (hne payload)
  cases a with
  | connected tokens =>
    refine hfalse _ (any_queued [⟨Message.announceCapabilities, _⟩] rfl ?_) (fun _ he => by cases he)
    intro m hm
    rw [List.mem_singleton.1 hm]
    decide
  | disconnected => exact hfalse _ (hnothing _ rfl) (fun _ he => by cases he)
  | addTokens tokens => exact hfalse _ (hnothing _ rfl) (fun _ he => by cases he)
  | nextPiece =>
    refine hfalse _ (hnothing _ ?_) (fun _ he => by cases he)
    rw [perform]
    rcases nextPiece_cases s with hs | ⟨piece, outbound, -, -, hs⟩
    · rw [hs]
    · rw [hs]
  | offerClipboard text =>
    refine hfalse _ ?_ (fun _ he => by cases he)
    simp only [sendsText, queuedBy, perform, offerClipboard]
    split
    · exact hnothing _ rfl
    · split
      · exact hnothing _ rfl
      · exact grab_sends (s := { s with ours := some text, offered := false }) [] (List.append_nil _).symm
          (fun _ hm => by cases hm)
  | requestMonitors monitors =>
    refine hfalse _ ?_ (fun _ he => by cases he)
    simp only [sendsText, queuedBy, perform, requestMonitors]
    split
    · exact hnothing _ rfl
    · refine any_queued [⟨Message.monitorsConfig, _⟩] rfl ?_
      intro m hm
      rw [List.mem_singleton.1 hm]
      exact (by decide : Message.monitorsConfig ≠ Message.clipboard)
  | message type payload =>
    rcases eq_or_ne type Message.clipboardRequest with rfl | htype
    · rw [show s.sendsText (.message Message.clipboardRequest payload) = s.ours.isSome from requested_sends s,
        Option.isSome_iff_ne_none]
      constructor
      · intro h
        exact ⟨payload, rfl, h⟩
      · rintro ⟨_, -, h⟩
        exact h
    · refine hfalse _ ?_ (fun _ he => htype (Act.message.inj he).1)
      simp only [sendsText, queuedBy, perform, message, if_neg htype]
      repeat' split
      · exact announced_sends s payload
      · exact grabbed_sends s payload
      · exact hnothing s rfl
      · exact hnothing s rfl

/-! ## Whole runs -/

/-- An act after which the flag and what is sent are right is proper. -/
theorem Owned.proper {any : Bool} {before : List Act} {a : Act} {g : Ledger} (h : Owned any (before ++ [a]))
    (hg : run (Ledger.step any) .start before = some g) : Proper any g a := by
  have hafter : run (Ledger.step any) .start (before ++ [a]) =
      some ⟨g.agent.perform a, knownAfter any g.agent g.known a⟩ := run_snoc hg rfl
  cases a with
  | connected tokens =>
    rw [Proper]
    by_contra ho
    obtain ⟨text, -, hknown⟩ := h.offered _ hafter (Bool.of_not_eq_false ho)
    cases hknown
  | message type payload =>
    refine ⟨?_, ?_⟩
    · rintro rfl hours
      obtain ⟨payload', he, hasks, hoffered⟩ := h.asked before _ g rfl hg ((sendsText_iff _ _).2 ⟨payload, rfl, hours⟩)
      obtain rfl := (Act.message.inj he).2
      exact ⟨hasks, hoffered⟩
    · rintro rfl rfl hoffered hsel
      by_contra htext
      rcases grabbed_cases g.agent payload with ⟨-, ht, -⟩ | ⟨-, hs⟩
      · exact htext ht
      · obtain ⟨text, -, hknown⟩ := h.offered _ hafter (by
          change (g.agent.grabbed payload).offered = true
          rw [hs]
          exact hoffered)
        rw [knownAfter_message, if_pos (by simp [takesOver, hsel])] at hknown
        cases hknown
  | disconnected => trivial
  | addTokens tokens => trivial
  | nextPiece => trivial
  | offerClipboard text => trivial
  | requestMonitors monitors => trivial

theorem meets_agrees {any : Bool} {as : List Act} {g : Ledger} (hm : Meets (Ledger.step any) (Proper any) .start as)
    (hg : run (Ledger.step any) .start as = some g) : Agrees g.agent g.known := by
  refine trace_inv (fun _ g => Agrees g.agent g.known) ?_ ?_ hm hg
  · refine ⟨fun ho => ?_, fun hc => ?_⟩
    · cases ho
    · cases hc
  · intro _ g a g' h hok hstep
    obtain rfl := Option.some.inj hstep
    exact step_agrees h hok

theorem meets_owned {any : Bool} {as : List Act} (hm : Meets (Ledger.step any) (Proper any) .start as) :
    Owned any as := by
  refine ⟨?_, ?_, ?_⟩
  · intro g hg ho
    obtain ⟨hours, hknown⟩ := (meets_agrees hm hg).offered ho
    obtain ⟨text, htext⟩ := Option.ne_none_iff_exists'.1 hours
    exact ⟨text, htext, hknown.trans htext⟩
  · intro g hg hclip text htext
    have h := meets_agrees hm hg
    have hoffered := h.told hclip (by simp [htext])
    exact (h.offered hoffered).2.trans htext
  · rintro before a g rfl hg hsends
    obtain ⟨payload, rfl, hours⟩ := (sendsText_iff _ _).1 hsends
    obtain ⟨hasks, hoffered⟩ := (hm.append_right hg).1.1 rfl hours
    exact ⟨payload, rfl, hasks, hoffered⟩

/-- The ownership is as it should be in every state of a run exactly when every
act of the run is proper, whichever grabs of the guest's count. -/
theorem owned_iff_proper (any : Bool) (as : List Act) :
    (∀ before, before <+: as → Owned any before) ↔ Meets (Ledger.step any) (Proper any) .start as := by
  constructor
  · intro h
    have go : ∀ (rest before : List Act) (g : Ledger), before ++ rest = as →
        run (Ledger.step any) .start before = some g → Meets (Ledger.step any) (Proper any) g rest := by
      intro rest
      induction rest with
      | nil => intro _ _ _ _; trivial
      | cons a rest ih =>
        intro before g has hg
        have hsnoc : (before ++ [a]) ++ rest = as := by rw [List.append_assoc]; exact has
        refine ⟨(h _ ⟨rest, hsnoc⟩).proper hg, fun g' hstep => ?_⟩
        exact ih (before ++ [a]) g' hsnoc (run_snoc hg hstep)
    exact go as [] .start rfl rfl
  · rintro hm before ⟨rest, rfl⟩
    exact meets_owned hm.append_left

/-- The guest's agent with a clipboard that knows selections, and a text copied
here. -/
def copiedHere : List Act :=
  [.connected 10, .message Message.announceCapabilities [0, 0, 0, 0, 0x60, 0, 0, 0], .offerClipboard ['a']]

/-- The agent that comes up again is not told of the text; the text goes out for
the primary selection; and a picture grabbed in the guest leaves it offered. -/
theorem not_owned :
    ¬ Owned false (copiedHere ++ [.connected 10]) ∧
    ¬ Owned false (copiedHere ++ [.message Message.clipboardRequest [1, 0, 0, 0, 1, 0, 0, 0]]) ∧
    ¬ Owned true (copiedHere ++ [.message Message.clipboardGrab [0, 0, 0, 0, 2, 0, 0, 0]]) := by
  refine ⟨fun h => ?_, fun h => ?_, fun h => ?_⟩
  · obtain ⟨text, -, hknown⟩ := h.offered _ rfl rfl
    cases hknown
  · obtain ⟨payload, he, hasks, -⟩ := h.asked copiedHere _ _ rfl rfl (by decide)
    obtain rfl := (Act.message.inj he).2
    exact absurd hasks (by decide)
  · obtain ⟨text, -, hknown⟩ := h.offered _ rfl rfl
    have hnone : (none : Option Text) = some text := hknown
    cases hnone

end Vento.Spice.Agent
