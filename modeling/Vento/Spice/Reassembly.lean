import Vento.Spice.Agent
/-!
# Messages from the guest, however they are cut

A message arrives in pieces with no boundary of their own, several may share a
piece, and one that is too large to keep is dropped as it comes. `Reading s rest
ms` says that the agent is in step with the guest: the bytes `rest` still to come
complete what it holds, or is skipping, to the messages `ms`. Every piece keeps
it, and gives the events of the messages it completes.
-/

namespace Vento.Spice

open Vento.Lib

/-! ## A header in front of other bytes -/

theorem word_append {xs : List UInt8} {i : Nat} (h : i + 4 ≤ xs.length) (ys : List UInt8) :
    Agent.word (xs ++ ys) i = Agent.word xs i := by
  unfold Agent.word
  rw [List.drop_append_of_le_length (by omega), List.take_append_of_le_length (by rw [List.length_drop]; omega)]

theorem whole_length (type unused : Nat) (body : List UInt8) :
    (whole type unused body).length = header + body.length := by
  simp only [whole, header, List.length_append, toLeBytes_length]
  omega

theorem word_protocol (type unused : Nat) (body : List UInt8) : Agent.word (whole type unused body) 0 = protocol := rfl

theorem word_type {type : Nat} (h : type < 2 ^ 32) (unused : Nat) (body : List UInt8) :
    Agent.word (whole type unused body) 4 = type := by
  unfold Agent.word whole
  rw [List.drop_append_of_le_length (by simp), List.drop_of_length_le (by simp), List.nil_append,
    List.take_append_of_le_length (by simp), List.take_of_length_le (by simp), fromLeBytes_toLeBytes (by omega)]

theorem drop_sizes (type unused : Nat) (body : List UInt8) :
    (whole type unused body).drop 16 = toLeBytes 4 body.length ++ body := by
  rfl

theorem word_size (type unused : Nat) {body : List UInt8} (h : body.length < 2 ^ 32) :
    Agent.word (whole type unused body) 16 = body.length := by
  unfold Agent.word
  rw [drop_sizes, List.take_append_of_le_length (by simp), List.take_of_length_le (by simp),
    fromLeBytes_toLeBytes (by omega)]

/-! ## Messages, one by one -/

/-- A message of the guest's. Its length is a 32-bit field. -/
structure Incoming where
  type : UInt32
  unused : UInt64
  body : List UInt8
  size_lt : body.length < 2 ^ 32

def Incoming.bytes (m : Incoming) : List UInt8 := whole m.type.toNat m.unused.toNat m.body

theorem Incoming.bytes_length (m : Incoming) : m.bytes.length = header + m.body.length := whole_length _ _ _

namespace Agent

/-- What a whole message does, by itself: one past the size that this end reads
does nothing. -/
def deliver (s : Agent) (m : Incoming) : Agent × List Event :=
  if m.body.length > maxMessage then (s, []) else s.message m.type.toNat m.body

def deliverAll : Agent → List Incoming → Agent × List Event
  | s, [] => (s, [])
  | s, m :: ms => ((deliverAll (s.deliver m).1 ms).1, (s.deliver m).2 ++ (deliverAll (s.deliver m).1 ms).2)

/-- The events of each piece in turn. -/
def receiveAll : Agent → List (List UInt8) → Agent × List Event
  | s, [] => (s, [])
  | s, c :: cs => ((receiveAll (s.receive c).1 cs).1, (s.receive c).2 ++ (receiveAll (s.receive c).1 cs).2)

theorem deliverAll_append (s : Agent) (ms ms' : List Incoming) :
    s.deliverAll (ms ++ ms') = (((s.deliverAll ms).1.deliverAll ms').1,
      (s.deliverAll ms).2 ++ ((s.deliverAll ms).1.deliverAll ms').2) := by
  induction ms generalizing s with
  | nil => rfl
  | cons m ms ih => simp only [List.cons_append, deliverAll, ih, List.append_assoc]

theorem hold_self (s : Agent) : s.hold s.inbound s.skipping = s := rfl

theorem deliver_hold (s : Agent) (m : Incoming) (i : List UInt8) (k : Nat) :
    (s.hold i k).deliver m = ((s.deliver m).1.hold i k, (s.deliver m).2) := by
  unfold deliver
  rw [message_hold]
  split <;> rfl

theorem deliverAll_hold (s : Agent) (ms : List Incoming) (i : List UInt8) (k : Nat) :
    (s.hold i k).deliverAll ms = ((s.deliverAll ms).1.hold i k, (s.deliverAll ms).2) := by
  induction ms generalizing s with
  | nil => rfl
  | cons m ms ih => simp only [deliverAll, deliver_hold, ih]

/-! ## In step with the guest -/

/-- The agent has read a part of what the guest sends: the bytes `rest` complete
the ones it holds, past those it skips, to the messages `ms`. -/
structure Reading (s : Agent) (rest : List UInt8) (ms : List Incoming) : Prop where
  bytes : ∃ skipped : List UInt8, skipped.length = s.skipping ∧ s.inbound ++ rest = skipped ++ ms.flatMap Incoming.bytes
  skipping : 0 < s.skipping → s.inbound = []

/-- What one call makes of the messages `ms`: it has done the first of them, is
in step for the others, and leaves none when there is nothing to come. -/
def Reads (s : Agent) (rest : List UInt8) (ms : List Incoming) (r : Agent × List Event) : Prop :=
  ∃ done todo, ms = done ++ todo ∧ Reading r.1 rest todo ∧ (rest = [] → todo = []) ∧ r.2 = (s.deliverAll done).2 ∧
    r.1 = (s.deliverAll done).1.hold r.1.inbound r.1.skipping

theorem Reads.none {s : Agent} {rest : List UInt8} {ms : List Incoming} (h : Reading s rest ms)
    (hrest : rest = [] → ms = []) : Reads s rest ms (s, []) :=
  ⟨[], ms, rfl, h, hrest, rfl, rfl⟩

/-- One message done, and then what the rest of the call does. -/
theorem Reads.cons {s : Agent} {m : Incoming} {i : List UInt8} {k : Nat} {rest : List UInt8} {ms : List Incoming}
    {r : Agent × List Event} (h : Reads ((s.deliver m).1.hold i k) rest ms r) :
    Reads s rest (m :: ms) (r.1, (s.deliver m).2 ++ r.2) := by
  obtain ⟨done, todo, rfl, hreading, hrest, hevents, hstate⟩ := h
  rw [deliverAll_hold] at hevents hstate
  refine ⟨m :: done, todo, rfl, hreading, hrest, ?_, ?_⟩
  · simp only [deliverAll, hevents]
  · exact hstate

theorem flatMap_bytes_eq_nil {ms : List Incoming} (h : (ms.flatMap Incoming.bytes).length < header) : ms = [] := by
  cases ms with
  | nil => rfl
  | cons m ms =>
    rw [List.flatMap_cons, List.length_append, m.bytes_length] at h
    omega

/-- A header in the buffer is the next message's, and the bytes after it are
that message's body and the messages after it. -/
theorem Reading.head {s : Agent} {rest : List UInt8} {ms : List Incoming} (h : Reading s rest ms)
    (hlen : header ≤ s.inbound.length) :
    s.skipping = 0 ∧ ∃ m ms', ms = m :: ms' ∧ word s.inbound 0 = protocol ∧ word s.inbound 4 = m.type.toNat ∧
      word s.inbound 16 = m.body.length ∧ s.inbound.drop header ++ rest = m.body ++ ms'.flatMap Incoming.bytes := by
  obtain ⟨⟨skipped, hskipped, hbytes⟩, hskip⟩ := h
  have hzero : s.skipping = 0 := by
    by_contra hne
    rw [hskip (by omega)] at hlen
    simp [header] at hlen
  rw [List.length_eq_zero_iff.1 (hskipped.trans hzero), List.nil_append] at hbytes
  cases ms with
  | nil =>
    rw [List.flatMap_nil, List.append_eq_nil_iff] at hbytes
    rw [hbytes.1] at hlen
    simp [header] at hlen
  | cons m ms =>
    rw [List.flatMap_cons] at hbytes
    have hword : ∀ i, i + 4 ≤ header → word s.inbound i = word m.bytes i := by
      intro i hi
      rw [← word_append (by omega) rest, hbytes, word_append (by rw [m.bytes_length]; omega)]
    refine ⟨hzero, m, ms, rfl, ?_, ?_, ?_, ?_⟩
    · rw [hword 0 (by decide)]
      exact word_protocol _ _ _
    · rw [hword 4 (by decide)]
      exact word_type m.type.toNat_lt _ _
    · rw [hword 16 (by decide)]
      exact word_size _ _ m.size_lt
    · rw [← List.drop_append_of_le_length hlen, hbytes, List.drop_append_of_le_length (by rw [m.bytes_length]; omega)]
      rfl

/-- The loop does the messages that are whole. -/
theorem drain_reads (s : Agent) (rest : List UInt8) (ms : List Incoming) (h : Reading s rest ms) :
    Reads s rest ms s.drain := by
  fun_induction drain s generalizing ms with
  | case1 s hlen =>
    refine .none h fun hrest => ?_
    obtain ⟨⟨skipped, _, hbytes⟩, _⟩ := h
    rw [hrest, List.append_nil] at hbytes
    rw [hbytes, List.length_append] at hlen
    exact flatMap_bytes_eq_nil (by omega)
  | case2 s hlen hprotocol =>
    obtain ⟨-, m, ms', -, hp, -⟩ := h.head (by omega)
    exact absurd hp hprotocol
  | case3 s hlen size _ hsize here ih =>
    obtain ⟨-, m, ms', rfl, -, -, hm, hrest⟩ := h.head (by omega)
    have hdeliver : s.deliver m = (s, []) := if_pos (by omega)
    -- the rest of the message that is not in the buffer is skipped
    have hreading : Reading (s.hold (s.inbound.drop (header + here)) (size - here)) rest ms' := by
      refine ⟨⟨m.body.drop here, ?_, ?_⟩, ?_⟩
      · simp only [hold, List.length_drop]
        omega
      · have hdrop := congrArg (List.drop here) hrest
        rwa [List.drop_append_of_le_length (by rw [List.length_drop]; omega),
          List.drop_append_of_le_length (by omega), List.drop_drop] at hdrop
      · intro hpos
        simp only [hold] at hpos ⊢
        rw [List.drop_eq_nil_iff]
        omega
    have hreads := ih ms' hreading
    rw [show s.hold _ _ = (s.deliver m).1.hold _ _ by rw [hdeliver]] at hreads
    have hcons := hreads.cons
    rwa [hdeliver] at hcons
  | case4 s hlen size _ hsize hshort =>
    refine .none h fun hrest => ?_
    obtain ⟨-, m, ms', rfl, -, -, hm, hbytes⟩ := h.head (by omega)
    rw [hrest, List.append_nil] at hbytes
    have hl := congrArg List.length hbytes
    rw [List.length_append, List.length_drop] at hl
    omega
  | case5 s hlen size _ hsize hwhole payload r r' ih =>
    obtain ⟨hzero, m, ms', rfl, -, htype, hm, hbytes⟩ := h.head (by omega)
    have hpayload : payload = m.body := by
      have htake := congrArg (List.take size) hbytes
      rw [List.take_append_of_le_length (by rw [List.length_drop]; omega),
        List.take_append_of_le_length (by omega)] at htake
      exact htake.trans (List.take_of_length_le (by omega))
    have hr : r = ((s.deliver m).1.hold (s.inbound.drop (header + size)) s.skipping, (s.deliver m).2) := by
      simp only [r, htype, hpayload, message_hold, deliver, if_neg (show ¬ m.body.length > maxMessage by omega)]
    have hreads : Reads r.1 rest ms' r.1.drain := by
      refine ih ms' ⟨⟨[], ?_, ?_⟩, ?_⟩
      · rw [hr]
        simp only [hold, hzero, List.length_nil]
      · have hdrop := congrArg (List.drop size) hbytes
        have hnil : m.body.drop size = [] := List.drop_of_length_le (by omega)
        rw [List.drop_append_of_le_length (by rw [List.length_drop]; omega), List.drop_append_of_le_length (by omega),
          List.drop_drop, hnil] at hdrop
        rw [hr]
        exact hdrop
      · intro hpos
        rw [hr] at hpos
        simp only [hold] at hpos
        omega
    rw [hr] at hreads
    have hcons := hreads.cons
    simp only [r', hr]
    exact hcons

/-- The bytes of a piece go to what is skipped first. -/
theorem Reading.append {s : Agent} {piece rest : List UInt8} {ms : List Incoming} (h : Reading s (piece ++ rest) ms) :
    Reading (s.hold (s.inbound ++ piece.drop (min s.skipping piece.length))
      (s.skipping - min s.skipping piece.length)) rest ms := by
  obtain ⟨⟨skipped, hskipped, hbytes⟩, hskip⟩ := h
  rcases Nat.eq_zero_or_pos s.skipping with hzero | hpos
  · refine ⟨⟨skipped, ?_, ?_⟩, ?_⟩
    · simp only [hold]
      omega
    · simp only [hold, hzero, Nat.zero_min, List.drop_zero, List.append_assoc]
      exact hbytes
    · intro hpos
      simp only [hold] at hpos
      omega
  · rw [hskip hpos, List.nil_append] at hbytes
    refine ⟨⟨skipped.drop (min s.skipping piece.length), ?_, ?_⟩, ?_⟩
    · simp only [hold, List.length_drop]
      omega
    · have hdrop := congrArg (List.drop (min s.skipping piece.length)) hbytes
      rw [List.drop_append_of_le_length (by omega), List.drop_append_of_le_length (by omega)] at hdrop
      simp only [hold, hskip hpos, List.nil_append]
      exact hdrop
    · intro hleft
      simp only [hold] at hleft ⊢
      rw [hskip hpos, List.nil_append, List.drop_eq_nil_iff]
      omega

theorem receive_reads {s : Agent} {piece rest : List UInt8} {ms : List Incoming} (h : Reading s (piece ++ rest) ms) :
    Reads s rest ms (s.receive piece) := by
  obtain ⟨done, todo, hms, hreading, hrest, hevents, hstate⟩ := drain_reads _ rest ms h.append
  rw [deliverAll_hold] at hevents hstate
  exact ⟨done, todo, hms, hreading, hrest, hevents, hstate⟩

/-- Nothing is half received once there is nothing to come. -/
theorem Reading.done {s : Agent} (h : Reading s [] []) : s.inbound = [] ∧ s.skipping = 0 := by
  obtain ⟨⟨skipped, hskipped, hbytes⟩, hskip⟩ := h
  rw [List.flatMap_nil, List.append_nil, List.append_nil] at hbytes
  rcases Nat.eq_zero_or_pos s.skipping with hzero | hpos
  · exact ⟨hbytes.trans (List.length_eq_zero_iff.1 (hskipped.trans hzero)), hzero⟩
  · rw [← hbytes, hskip hpos, List.length_nil] at hskipped
    omega

theorem receiveAll_reads {s : Agent} {pieces : List (List UInt8)} {ms : List Incoming} (h : Reading s pieces.flatten ms)
    (hrest : pieces.flatten = [] → ms = []) :
    s.receiveAll pieces = ((s.deliverAll ms).1.hold [] 0, (s.deliverAll ms).2) := by
  induction pieces generalizing s ms with
  | nil =>
    obtain rfl := hrest rfl
    obtain ⟨hinbound, hskipping⟩ := h.done
    have hs : s.hold [] 0 = s := by rw [← hinbound, ← hskipping, hold_self]
    rw [deliverAll, hs]
    rfl
  | cons piece pieces ih =>
    obtain ⟨done, todo, rfl, hreading, hrest, hevents, hstate⟩ := receive_reads h
    rw [receiveAll, ih hreading hrest, deliverAll_append, hevents, hstate, deliverAll_hold]
    rfl

/-- Between two messages, the pieces of some messages do what these do one by
one. -/
theorem receiveAll_eq_deliverAll {s : Agent} (hinbound : s.inbound = []) (hskipping : s.skipping = 0)
    {pieces : List (List UInt8)} {ms : List Incoming} (h : pieces.flatten = ms.flatMap Incoming.bytes) :
    s.receiveAll pieces = s.deliverAll ms := by
  have hs : s.hold [] 0 = s := by rw [← hinbound, ← hskipping, hold_self]
  have hreading : Reading s pieces.flatten ms := by
    refine ⟨⟨[], hskipping.symm, ?_⟩, fun _ => hinbound⟩
    rw [hinbound, List.nil_append, List.nil_append, h]
  rw [receiveAll_reads hreading]
  · rw [← deliverAll_hold, hs]
  · intro hnil
    rw [h] at hnil
    exact flatMap_bytes_eq_nil (by rw [hnil]; decide)

/-! ## What is held -/

/-- What is held of the guest's bytes between two calls. -/
structure Bounded (s : Agent) : Prop where
  inbound : s.inbound.length ≤ header + maxMessage
  skipping : 0 < s.skipping → s.inbound = []

theorem Bounded.of_eq {s t : Agent} (h : Bounded s) (hi : t.inbound = s.inbound) (hs : t.skipping = s.skipping) :
    Bounded t := by
  refine ⟨?_, ?_⟩
  · rw [hi]
    exact h.inbound
  · rw [hi, hs]
    exact h.skipping

theorem Bounded.nil {s : Agent} (h : s.inbound = []) : Bounded s := by
  refine ⟨?_, fun _ => h⟩
  rw [h]
  exact Nat.zero_le _

theorem drain_bounded (s : Agent) (h : 0 < s.skipping → s.inbound = []) : Bounded s.drain.1 := by
  fun_induction drain s with
  | case1 s hlen =>
    refine ⟨?_, h⟩
    dsimp only
    omega
  | case2 s _ _ => exact .nil rfl
  | case3 s hlen size _ hsize here ih =>
    apply ih
    intro hpos
    simp only [hold] at hpos ⊢
    rw [List.drop_eq_nil_iff]
    omega
  | case4 s _ size _ hsize hshort =>
    refine ⟨?_, h⟩
    dsimp only
    omega
  | case5 s hlen size _ _ _ payload r r' ih =>
    apply ih
    intro hpos
    rw [message_skipping] at hpos
    have hnil := h hpos
    rw [hnil] at hlen
    exact absurd (by decide) hlen

theorem receive_bounded {s : Agent} (h : Bounded s) (piece : List UInt8) : Bounded (s.receive piece).1 := by
  apply drain_bounded
  intro hpos
  simp only [hold] at hpos ⊢
  rw [h.skipping (by omega), List.nil_append, List.drop_eq_nil_iff]
  omega

theorem grab_inbound (s : Agent) : s.grab.inbound = s.inbound := by
  have h := congrArg Agent.inbound (grab_hold s s.inbound s.skipping)
  exact h

theorem grab_skipping (s : Agent) : s.grab.skipping = s.skipping := by
  have h := congrArg Agent.skipping (grab_hold s s.inbound s.skipping)
  exact h

theorem step_bounded {s : Agent} (h : Bounded s) (op : Op) : Bounded (s.step op) := by
  cases op with
  | connected tokens => exact .nil rfl
  | disconnected => exact .nil rfl
  | addTokens tokens => exact h.of_eq rfl rfl
  | nextPiece =>
    simp only [step, nextPiece]
    repeat' split
    all_goals exact h.of_eq rfl rfl
  | offerClipboard text =>
    simp only [step, offerClipboard]
    split
    · exact h
    · split
      · exact h
      · exact h.of_eq (grab_inbound _) (grab_skipping _)
  | requestMonitors monitors =>
    simp only [step, requestMonitors]
    split
    · exact h
    · exact h.of_eq rfl rfl
  | receive body => exact receive_bounded h body

theorem after_bounded {s : Agent} (h : Bounded s) (ops : List Op) : Bounded (s.after ops) := by
  induction ops generalizing s with
  | nil => exact h
  | cons op ops ih => exact ih (step_bounded h op)

/-- Any messages, cut anyhow, have the effect they have one by one, and the one
they have when each comes whole; and whatever comes, no more than a message is
held, and nothing is while a message is skipped. -/
theorem reassembles :
    (∀ (s : Agent) (ms : List Incoming) (pieces : List (List UInt8)), s.inbound = [] → s.skipping = 0 →
      pieces.flatten = ms.flatMap Incoming.bytes →
      s.receiveAll pieces = s.receiveAll (ms.map Incoming.bytes) ∧ s.receiveAll pieces = s.deliverAll ms) ∧
    ∀ ops : List Op, (new.after ops).inbound.length ≤ header + maxMessage ∧
      (0 < (new.after ops).skipping → (new.after ops).inbound = []) := by
  refine ⟨?_, ?_⟩
  · intro s ms pieces hinbound hskipping h
    have hwhole : s.receiveAll (ms.map Incoming.bytes) = s.deliverAll ms :=
      receiveAll_eq_deliverAll hinbound hskipping List.flatMap_def.symm
    have hpieces : s.receiveAll pieces = s.deliverAll ms := receiveAll_eq_deliverAll hinbound hskipping h
    exact ⟨hpieces.trans hwhole.symm, hpieces⟩
  · intro ops
    have h := after_bounded (Bounded.nil (s := new) rfl) ops
    exact ⟨h.inbound, h.skipping⟩

/-- A request for our text and a grab, cut inside the first header and the
second body. -/
theorem reassembles_two :
    let ms : List Incoming := [⟨8, 0, [], by decide⟩, ⟨7, 0, [1, 0, 0, 0], by decide⟩]
    let bytes := ms.flatMap Incoming.bytes
    new.receiveAll [bytes.take 3, (bytes.drop 3).take 38, bytes.drop 41] = new.deliverAll ms :=
  (reassembles.1 new _ _ rfl rfl (by decide)).2

end Agent

end Vento.Spice
