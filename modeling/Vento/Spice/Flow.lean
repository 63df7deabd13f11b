import Vento.Spice.Reassembly
/-!
# Pieces and tokens

A piece leaves for a token, in the order the messages were queued in. What holds
between the calls is a conservation law: the pieces sent since the agent came up
and those that still wait are the pieces of the messages queued since, and the
tokens spent and left are no more than those granted.
-/

namespace Vento.Spice.Agent

open Vento.Lib

/-! ## What may be queued -/

/-- Messages were queued between the two, and no token spent. -/
def Queues (s t : Agent) : Prop :=
  ∃ ms, t.queued = s.queued ++ ms ∧ t.outbound = s.outbound ++ ms.flatMap Outgoing.pieces ∧ t.tokens = s.tokens

theorem Queues.of_eq {s t : Agent} (hq : t.queued = s.queued) (ho : t.outbound = s.outbound)
    (ht : t.tokens = s.tokens) : Queues s t :=
  ⟨[], by simp [hq], by simp [ho], ht⟩

theorem Queues.refl (s : Agent) : Queues s s := .of_eq rfl rfl rfl

theorem Queues.trans {s t u : Agent} (h : Queues s t) (h' : Queues t u) : Queues s u := by
  obtain ⟨ms, hq, ho, ht⟩ := h
  obtain ⟨ms', hq', ho', ht'⟩ := h'
  refine ⟨ms ++ ms', ?_, ?_, ?_⟩
  · rw [hq', hq, List.append_assoc]
  · rw [ho', ho, List.flatMap_append, List.append_assoc]
  · rw [ht', ht]

theorem queue_queues (s : Agent) (type : Nat) (body : List UInt8) : Queues s (s.queue type body) :=
  ⟨[⟨type, body⟩], rfl, by simp [queue], rfl⟩

theorem hold_queues (s : Agent) (i : List UInt8) (k : Nat) : Queues s (s.hold i k) := .of_eq rfl rfl rfl

theorem grab_queues (s : Agent) : Queues s s.grab := by
  unfold grab
  split
  · exact .refl s
  · exact queue_queues _ _ _

theorem announced_queues (s : Agent) (payload : List UInt8) : Queues s (s.announced payload).1 := by
  unfold announced
  split
  · exact .refl s
  · refine Queues.trans ?_ (grab_queues _)
    split
    · exact queue_queues _ _ _
    · exact .of_eq rfl rfl rfl

theorem grabbed_queues (s : Agent) (payload : List UInt8) : Queues s (s.grabbed payload) := by
  unfold grabbed
  dsimp only
  split
  · exact .refl s
  · exact queue_queues _ _ _

theorem requested_queues (s : Agent) : Queues s s.requested := by
  unfold requested
  split <;> exact queue_queues _ _ _

theorem message_queues (s : Agent) (type : Nat) (payload : List UInt8) : Queues s (s.message type payload).1 := by
  unfold message
  repeat' split
  · exact announced_queues s payload
  · exact grabbed_queues s payload
  · exact .refl s
  · exact requested_queues s
  · exact .refl s

theorem drain_queues (s : Agent) : Queues s s.drain.1 := by
  fun_induction drain s with
  | case1 s _ => exact .refl s
  | case2 s _ _ => exact hold_queues s _ _
  | case3 s _ _ _ _ here ih => exact (hold_queues s _ _).trans ih
  | case4 s _ _ _ _ _ => exact .refl s
  | case5 s _ _ _ _ _ payload r r' ih => exact ((hold_queues s _ _).trans (message_queues _ _ _)).trans ih

theorem receive_queues (s : Agent) (body : List UInt8) : Queues s (s.receive body).1 :=
  (hold_queues s _ _).trans (drain_queues _)

theorem offerClipboard_queues (s : Agent) (text : Text) : Queues s (s.offerClipboard text) := by
  unfold offerClipboard
  split
  · exact .refl s
  · split
    · exact .refl s
    · exact grab_queues { s with ours := some text, offered := false }

theorem requestMonitors_queues (s : Agent) (monitors : List Monitor) : Queues s (s.requestMonitors monitors) := by
  unfold requestMonitors
  split
  · exact .refl s
  · exact queue_queues s _ _

/-! ## What is sent -/

/-- The piece a call hands out to be sent. -/
def sentBy (s : Agent) : Op → List (List UInt8)
  | .nextPiece => s.nextPiece.2.toList
  | _ => []

/-- The pieces sent in a run of calls. -/
def sent : Agent → List Op → List (List UInt8)
  | _, [] => []
  | s, op :: ops => s.sentBy op ++ sent (s.step op) ops

/-- The tokens a call grants. -/
def Op.grants : Op → Nat
  | .addTokens tokens => tokens.toNat
  | _ => 0

def granted (ops : List Op) : Nat := (ops.map Op.grants).sum

theorem toNat_saturatingAdd_le (a b : UInt32) : (saturatingAdd a b).toNat ≤ a.toNat + b.toNat := by
  unfold saturatingAdd
  split
  · rw [UInt32.toNat_add]
    exact Nat.mod_le _ _
  · change 2 ^ 32 - 1 ≤ _
    omega

/-- A piece is handed out from the front of the queue, for a token; or nothing
happens. -/
theorem nextPiece_cases (s : Agent) :
    s.nextPiece = (s, none) ∨ ∃ piece outbound, s.outbound = piece :: outbound ∧ s.tokens ≠ 0 ∧
      s.nextPiece = ({ s with outbound, tokens := s.tokens - 1 }, some piece) := by
  unfold nextPiece
  split
  · exact .inl rfl
  · split
    · exact .inl rfl
    · rename_i htokens _ piece outbound hq
      exact .inr ⟨piece, outbound, hq, htokens, rfl⟩

/-- A call leaves what it does not name alone: only `connected` and
`disconnected` empty the queue, only a piece handed out leaves it otherwise. -/
theorem step_conserves (s : Agent) (op : Op) (hc : ∀ tokens, op ≠ .connected tokens) (hd : op ≠ .disconnected) :
    ∃ ms, (s.step op).queued = s.queued ++ ms ∧
      s.sentBy op ++ (s.step op).outbound = s.outbound ++ ms.flatMap Outgoing.pieces := by
  have hqueues : ∀ t, Queues s t → ∃ ms, t.queued = s.queued ++ ms ∧
      [] ++ t.outbound = s.outbound ++ ms.flatMap Outgoing.pieces := by
    rintro t ⟨ms, hq, ho, -⟩
    exact ⟨ms, hq, ho⟩
  cases op with
  | connected tokens => exact absurd rfl (hc tokens)
  | disconnected => exact absurd rfl hd
  | addTokens tokens => exact ⟨[], by simp [step, addTokens], by simp [step, addTokens, sentBy]⟩
  | nextPiece =>
    rcases nextPiece_cases s with h | ⟨piece, outbound, ho, -, h⟩
    · exact ⟨[], by simp [step, h], by simp [step, sentBy, h]⟩
    · exact ⟨[], by simp [step, h], by simp [step, sentBy, h, ho]⟩
  | offerClipboard text => exact hqueues _ (offerClipboard_queues s text)
  | requestMonitors monitors => exact hqueues _ (requestMonitors_queues s monitors)
  | receive body => exact hqueues _ (receive_queues s body)

/-- The tokens spent and left after a call, by those before it. -/
theorem step_tokens (s : Agent) (op : Op) (hc : ∀ tokens, op ≠ .connected tokens) :
    (s.step op).tokens.toNat + (s.sentBy op).length ≤ s.tokens.toNat + op.grants := by
  have hqueues : ∀ t, Queues s t → t.tokens.toNat + 0 ≤ s.tokens.toNat + 0 := by
    rintro t ⟨ms, -, -, ht⟩
    rw [ht]
  cases op with
  | connected tokens => exact absurd rfl (hc tokens)
  | disconnected => exact Nat.le_refl _
  | addTokens tokens => exact toNat_saturatingAdd_le _ _
  | nextPiece =>
    rcases nextPiece_cases s with h | ⟨piece, outbound, -, ht, h⟩
    · simp [step, sentBy, h, Op.grants]
    · have hpos : 1 ≤ s.tokens.toNat := Nat.pos_of_ne_zero fun h0 => ht (UInt32.toNat.inj h0)
      have hsub : (s.tokens - 1).toNat = s.tokens.toNat - 1 :=
        UInt32.toNat_sub_of_le s.tokens 1 (UInt32.le_iff_toNat_le.2 hpos)
      simp only [step, sentBy, h, Op.grants, Option.toList_some, List.length_singleton, hsub]
      omega
  | offerClipboard text => exact hqueues _ (offerClipboard_queues s text)
  | requestMonitors monitors => exact hqueues _ (requestMonitors_queues s monitors)
  | receive body => exact hqueues _ (receive_queues s body)

/-! ## Whole runs -/

theorem after_cons (s : Agent) (op : Op) (ops : List Op) : s.after (op :: ops) = (s.step op).after ops := rfl

theorem after_conserves (s : Agent) (ops : List Op) (hc : ∀ tokens, .connected tokens ∉ ops) (hd : .disconnected ∉ ops) :
    ∃ ms, (s.after ops).queued = s.queued ++ ms ∧
      s.sent ops ++ (s.after ops).outbound = s.outbound ++ ms.flatMap Outgoing.pieces := by
  induction ops generalizing s with
  | nil => exact ⟨[], by simp [after], by simp [after, sent]⟩
  | cons op ops ih =>
    obtain ⟨ms, hq, ho⟩ := step_conserves s op (fun tokens he => hc tokens (by simp [he])) (fun he => hd (by simp [he]))
    obtain ⟨ms', hq', ho'⟩ := ih (s.step op) (fun tokens h => hc tokens (List.mem_cons_of_mem _ h))
      (fun h => hd (List.mem_cons_of_mem _ h))
    refine ⟨ms ++ ms', ?_, ?_⟩
    · rw [after_cons, hq', hq, List.append_assoc]
    · rw [after_cons, sent, List.append_assoc, ho', ← List.append_assoc, ho, List.flatMap_append, List.append_assoc]

theorem after_tokens (s : Agent) (ops : List Op) (hc : ∀ tokens, .connected tokens ∉ ops) :
    (s.after ops).tokens.toNat + (s.sent ops).length ≤ s.tokens.toNat + granted ops := by
  induction ops generalizing s with
  | nil => exact Nat.le_refl _
  | cons op ops ih =>
    have hstep := step_tokens s op fun tokens he => hc tokens (by simp [he])
    have hrest := ih (s.step op) fun tokens h => hc tokens (List.mem_cons_of_mem _ h)
    rw [after_cons, sent, List.length_append]
    simp only [granted, List.map_cons, List.sum_cons] at hrest ⊢
    omega

/-- Every piece that waits fits a `MSG_MAIN_AGENT_DATA`. -/
def Fits (s : Agent) : Prop := ∀ piece ∈ s.outbound, piece.length ≤ maxPiece

theorem Queues.fits {s t : Agent} (h : Queues s t) (hs : Fits s) : Fits t := by
  obtain ⟨ms, -, ho, -⟩ := h
  intro piece hp
  rw [ho, List.mem_append, List.mem_flatMap] at hp
  rcases hp with hp | ⟨m, -, hp⟩
  · exact hs piece hp
  · exact length_le_of_mem_chunks hp

theorem step_fits {s : Agent} (hs : Fits s) (op : Op) :
    Fits (s.step op) ∧ ∀ piece ∈ s.sentBy op, piece.length ≤ maxPiece := by
  have hnone : ∀ piece ∈ ([] : List (List UInt8)), piece.length ≤ maxPiece := by
    intro piece hp
    cases hp
  cases op with
  | connected tokens =>
    have hempty : Fits { s with isConnected := true, tokens, caps := 0, inbound := [], skipping := 0, outbound := [] } :=
      hnone
    exact ⟨(queue_queues _ _ _).fits hempty, hnone⟩
  | disconnected => exact ⟨hnone, hnone⟩
  | addTokens tokens => exact ⟨hs, hnone⟩
  | nextPiece =>
    rcases nextPiece_cases s with h | ⟨piece, outbound, ho, -, h⟩
    · simp only [step, sentBy, h]
      exact ⟨hs, hnone⟩
    · simp only [step, sentBy, h, Option.toList_some, List.mem_singleton]
      refine ⟨?_, ?_⟩
      · intro p hp
        exact hs p (by rw [ho]; exact List.mem_cons_of_mem _ hp)
      · rintro p rfl
        exact hs p (by rw [ho]; exact List.mem_cons_self)
  | offerClipboard text => exact ⟨(offerClipboard_queues s text).fits hs, hnone⟩
  | requestMonitors monitors => exact ⟨(requestMonitors_queues s monitors).fits hs, hnone⟩
  | receive body => exact ⟨(receive_queues s body).fits hs, hnone⟩

theorem after_fits {s : Agent} (hs : Fits s) (ops : List Op) :
    Fits (s.after ops) ∧ ∀ piece ∈ s.sent ops, piece.length ≤ maxPiece := by
  induction ops generalizing s with
  | nil =>
    refine ⟨hs, fun piece hp => ?_⟩
    cases hp
  | cons op ops ih =>
    obtain ⟨hstep, hsent⟩ := step_fits hs op
    obtain ⟨hafter, hrest⟩ := ih hstep
    refine ⟨hafter, fun piece hp => ?_⟩
    rw [sent, List.mem_append] at hp
    rcases hp with hp | hp
    · exact hsent piece hp
    · exact hrest piece hp

theorem flatten_pieces (ms : List Outgoing) :
    (ms.flatMap Outgoing.pieces).flatten = ms.flatMap Outgoing.bytes := by
  induction ms with
  | nil => rfl
  | cons m ms ih =>
    rw [List.flatMap_cons, List.flatten_append, ih, List.flatMap_cons, Outgoing.pieces, flatten_chunks (by decide)]

/-- Since the agent last came up no more pieces are sent than tokens granted,
none is too long, and, until it goes away, what is sent is the start of the
messages queued since, one after another. -/
theorem flow_control (before since : List Op) (tokens : UInt32) (hlast : ∀ tokens', .connected tokens' ∉ since) :
    let down := new.after before
    let up := down.connected tokens
    (up.sent since).length ≤ tokens.toNat + granted since ∧
    (∀ piece ∈ up.sent since, piece.length ≤ maxPiece) ∧
    (.disconnected ∉ since → ∃ ms, (up.after since).queued = down.queued ++ ms ∧
      (up.sent since).flatten <+: ms.flatMap Outgoing.bytes) := by
  intro down up
  have hfits : Fits new := by
    intro piece hp
    cases hp
  refine ⟨?_, ?_, ?_⟩
  · have h := after_tokens up since hlast
    change _ ≤ tokens.toNat + granted since at h
    omega
  · have hdown : Fits down := (after_fits hfits before).1
    exact (after_fits (step_fits hdown (.connected tokens)).1 since).2
  · intro hdisconnected
    obtain ⟨ms, hq, ho⟩ := after_conserves up since hlast hdisconnected
    -- the announcement is queued by coming up itself
    obtain ⟨announcement, hup⟩ : ∃ m, up.queued = down.queued ++ [m] ∧ up.outbound = m.pieces := ⟨_, rfl, rfl⟩
    refine ⟨announcement :: ms, ?_, ?_⟩
    · rw [hq, hup.1, List.append_assoc]
      rfl
    · rw [← flatten_pieces, List.flatMap_cons, ← hup.2, ← ho, List.flatten_append]
      exact List.prefix_append _ _

/-- A text offered to a guest with the clipboard, with two tokens: the
announcement and the grab leave, and nothing more. -/
theorem flow_control_two :
    let up := new.connected 2
    let since : List Op := [.receive (whole 6 0 [0, 0, 0, 0, 32, 0, 0, 0]), .offerClipboard ['a'], .nextPiece, .nextPiece,
      .nextPiece]
    (up.sent since).length ≤ 2 + granted since :=
  (flow_control [] _ 2 (by simp)).1

end Vento.Spice.Agent
