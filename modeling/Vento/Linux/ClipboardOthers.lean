import Vento.Linux.Clipboard
/-!
# What the clipboard's owner does for others

The thread goes on with all it does while it sends text to a requestor: other requestors' transfers, reads of its own, its
window's commands. `Apart` is what leaves that requestor's transfers as they are and asks nothing of the server about it, and
`Aside` what leaves the ownership as it is too.
-/

namespace Vento.Linux.Clipboard

open Vento.Lib

namespace Worker

/-! ## What the owner does for others -/

/-- A request that is of a window's property or for that window. -/
def Request.Concerns (r : Nat) : Request → Prop
  | .changeProperty window _ _ _ => window = r
  | .notify requestor _ _ _ _ => requestor = r
  | .listen window _ => window = r
  | _ => False

/-- The transfers to a requestor. -/
def sendingTo (r : Nat) (w : Worker) : List Sending := w.sending.filter fun s => s.requestor = r

/-- What has nothing to do with the requestor `r`. -/
structure Apart (r : Nat) (w w' : Worker) : Prop where
  window : w'.window = w.window
  chunk : w'.chunk = w.chunk
  sending : sendingTo r w' = sendingTo r w
  requests : ∃ qs, w'.requests = w.requests ++ qs ∧ ∀ q ∈ qs, ¬Request.Concerns r q

/-- As `Apart`, and the ownership is left as it is. -/
structure Aside (r : Nat) (w w' : Worker) : Prop extends Apart r w w' where
  owned : w'.owned = w.owned

theorem Apart.refl (r : Nat) (w : Worker) : Apart r w w :=
  ⟨rfl, rfl, rfl, [], (List.append_nil _).symm, fun _ h => absurd h List.not_mem_nil⟩

theorem Apart.trans {r : Nat} {u v w : Worker} (h : Apart r u v) (h' : Apart r v w) : Apart r u w := by
  obtain ⟨qs, hqs, hno⟩ := h.requests
  obtain ⟨qs', hqs', hno'⟩ := h'.requests
  refine ⟨h'.window.trans h.window, h'.chunk.trans h.chunk, h'.sending.trans h.sending, qs ++ qs', ?_, fun q hq => ?_⟩
  · rw [hqs', hqs, List.append_assoc]
  · exact (List.mem_append.1 hq).elim (hno q) (hno' q)

theorem Aside.refl (r : Nat) (w : Worker) : Aside r w w := ⟨.refl r w, rfl⟩

theorem Aside.trans {r : Nat} {u v w : Worker} (h : Aside r u v) (h' : Aside r v w) : Aside r u w :=
  ⟨h.toApart.trans h'.toApart, h'.owned.trans h.owned⟩

theorem filter_set_of_not {α : Type} {p : α → Bool} {x y : α} {xs : List α} {i : Nat} (hx : xs[i]? = some x) (hpx : ¬p x)
    (hpy : ¬p y) : (xs.set i y).filter p = xs.filter p := by
  induction xs generalizing i with
  | nil => rfl
  | cons z zs ih =>
    cases i with
    | zero =>
      cases hx
      rw [List.set_cons_zero, List.filter_cons_of_neg hpy, List.filter_cons_of_neg hpx]
    | succ i => rw [List.set_cons_succ, List.filter_cons, List.filter_cons, ih hx]

theorem filter_eraseIdx_of_not {α : Type} {p : α → Bool} {x : α} {xs : List α} {i : Nat} (hx : xs[i]? = some x) (hpx : ¬p x) :
    (xs.eraseIdx i).filter p = xs.filter p := by
  induction xs generalizing i with
  | nil => rfl
  | cons z zs ih =>
    cases i with
    | zero =>
      cases hx
      rw [List.eraseIdx_cons_zero, List.filter_cons_of_neg hpx]
    | succ i => rw [List.eraseIdx_cons_succ, List.filter_cons, List.filter_cons, ih hx]

/-- A transfer to another requestor that replaces one. -/
theorem sendingTo_replaced {r : Nat} (new : Sending) (h : new.requestor ≠ r) (property : Nat) (sending : List Sending) :
    ((sending.filter fun s => ¬(s.requestor = new.requestor ∧ s.property = property)) ++ [new]).filter (fun s => s.requestor = r) =
      sending.filter fun s => s.requestor = r := by
  rw [List.filter_append, List.filter_filter, List.filter_cons_of_neg (by simpa using h), List.filter_nil, List.append_nil]
  refine List.filter_congr fun s _ => ?_
  by_cases hr : s.requestor = r
  · have hne : r ≠ new.requestor := fun h' => h h'.symm
    simp [hr, hne]
  · simp [hr]

section Operations

variable (A : Atoms) (r : Nat) (w : Worker)

theorem aside_request {q : Request} (hq : ¬Request.Concerns r q) : Aside r w (w.request q) :=
  ⟨⟨rfl, rfl, rfl, [q], rfl, fun _ h => by rw [List.mem_singleton.1 h]; exact hq⟩, rfl⟩

/-- What changes only transfers to others. -/
theorem aside_sending (sending : List Sending)
    (h : (sending.filter fun s => s.requestor = r) = w.sending.filter fun s => s.requestor = r) :
    Aside r w { w with sending := sending } :=
  ⟨⟨rfl, rfl, h, [], (List.append_nil _).symm, fun _ h => absurd h List.not_mem_nil⟩, rfl⟩

/-- What changes neither the transfers nor the requests. -/
theorem aside_of_eq {w' : Worker} (hwindow : w'.window = w.window) (hchunk : w'.chunk = w.chunk) (hsending : w'.sending = w.sending)
    (hrequests : w'.requests = w.requests) (howned : w'.owned = w.owned) : Aside r w w' :=
  ⟨⟨hwindow, hchunk, by rw [sendingTo, hsending, sendingTo], [], by rw [hrequests, List.append_nil],
    fun _ h => absurd h List.not_mem_nil⟩, howned⟩

theorem aside_setStep (step : Step) : Aside r w (w.setStep step) := aside_of_eq r w rfl rfl rfl rfl rfl

theorem aside_answer (began : Nat) (why : Why) (text : Option Str) : Aside r w (w.answer began why text) :=
  aside_of_eq r w rfl rfl rfl rfl rfl

theorem aside_reading (reading : Option Reading) (queued : Option Asked) :
    Aside r w { w with reading := reading, queued := queued } := aside_of_eq r w rfl rfl rfl rfl rfl

theorem aside_convert (target : Name) : Aside r w (w.convert A target) := by
  unfold convert
  exact (aside_reading r w _ w.queued).trans (aside_request r _ id)

theorem aside_takeProperty (reply : Reply) : Aside r w (w.takeProperty A reply).1 := by
  unfold takeProperty
  dsimp only
  split
  · exact aside_request r w id
  · split
    · exact (aside_request r w id).trans (aside_request r _ id)
    · split <;> exact aside_request r w id

theorem aside_startRead (asked : Asked) (reply : Reply) : Aside r w (w.startRead A asked reply) := by
  unfold startRead
  split
  · exact aside_answer r w _ _ _
  · split
    · exact aside_answer r w _ _ _
    · exact (aside_reading r w _ w.queued).trans (aside_convert A r _ _)

theorem aside_finish (text : Option Str) (reply : Reply) : Aside r w (w.finish A text reply) := by
  unfold finish
  split
  · exact .refl r w
  · dsimp only
    have hend : Aside r w (({ w with reading := none } : Worker).request (.deleteProperty (A.get .ventoClipboard))) :=
      (aside_reading r w none w.queued).trans (aside_request r _ id)
    split
    · exact hend.trans ((aside_reading r _ none none).trans (aside_startRead A r _ _ _))
    · exact hend.trans (aside_answer r _ _ _ _)

theorem aside_blind (i : Nat) (reply : Reply) : Aside r w (w.blind A i reply) := by
  unfold blind
  split
  · exact (aside_setStep r w _).trans (aside_convert A r _ _)
  · exact aside_finish A r w _ _

theorem aside_received (reply : Reply) : Aside r w (w.received A reply) := by
  have htake := aside_takeProperty A r w reply
  unfold received
  split
  · next u type bytes hu =>
    rw [hu] at htake
    split
    · exact htake.trans (aside_setStep r _ _)
    · exact htake.trans (aside_finish A r _ _ _)
  · next u hu =>
    rw [hu] at htake
    exact htake.trans (aside_finish A r _ _ _)

theorem aside_selectionNotify (requestor selection target property : Nat) (reply : Reply) :
    Aside r w (w.selectionNotify A requestor selection target property reply) := by
  unfold selectionNotify
  split
  · exact .refl r w
  · split
    · exact aside_request r w id
    · split
      · exact .refl r w
      · split
        · split
          · exact aside_blind A r w _ _
          · have htake := aside_takeProperty A r w reply
            dsimp only
            split
            · exact htake.trans ((aside_setStep r _ _).trans (aside_convert A r _ _))
            · exact htake.trans (aside_finish A r _ _ _)
        · split
          · exact aside_blind A r w _ _
          · exact aside_received A r w _
        · split
          · exact aside_finish A r w _ _
          · exact aside_received A r w _
        · exact .refl r w

theorem aside_incomingChunk (reply : Reply) : Aside r w (w.incomingChunk A reply) := by
  have htake := aside_takeProperty A r w reply
  unfold incomingChunk
  split
  · next u hu =>
    rw [hu] at htake
    exact htake
  · next u type bytes hu =>
    rw [hu] at htake
    split
    · split
      · exact htake.trans (aside_finish A r _ _ _)
      · dsimp only
        split
        · exact htake.trans ((aside_setStep r _ _).trans (aside_finish A r _ _ _))
        · exact htake.trans (aside_setStep r _ _)
    · exact htake

theorem apart_claim (time : Nat) (reply : Reply) : Apart r w (w.claim A time reply) := by
  unfold claim
  split
  · exact .refl r w
  · exact ⟨rfl, rfl, rfl, [_], rfl, fun q hq => by rw [List.mem_singleton.1 hq]; exact id⟩

theorem aside_convertFor {e : SelectionRequest} (he : e.requestor ≠ r) (property : Nat) (reply : Reply) :
    Aside r w (w.convertFor A e property reply).1 := by
  unfold convertFor
  split
  · exact .refl r w
  · split
    · exact .refl r w
    · split
      · exact aside_request r w he
      · split
        · exact aside_request r w he
        · split
          · exact .refl r w
          · dsimp only
            split
            · exact aside_request r w he
            · have hasked := fun data => (aside_request r w (q := .listen e.requestor true) he).trans
                (aside_request r _ (q := .changeProperty e.requestor property (A.get .incr) data) he)
              split
              · refine ⟨⟨rfl, rfl, ?_, (hasked _).requests⟩, rfl⟩
                exact sendingTo_replaced ⟨e.requestor, property, _, _, _, _, _⟩ he _ _
              · exact hasked _

theorem aside_selectionRequest {e : SelectionRequest} (he : e.requestor ≠ r) (reply : Reply) :
    Aside r w (w.selectionRequest A e reply) := by
  unfold selectionRequest
  exact (aside_convertFor A r w he _ reply).trans (aside_request r _ he)

theorem aside_forget {requestor : Nat} (h : requestor ≠ r) : Aside r w (w.forget requestor) := by
  unfold forget
  split
  · exact .refl r w
  · exact aside_request r w h

theorem aside_outgoingChunk {window : Nat} (h : window ≠ r) (atom : Nat) (reply : Reply) :
    Aside r w (w.outgoingChunk window atom reply) := by
  unfold outgoingChunk
  split
  · exact .refl r w
  · next i hi =>
    split
    · exact .refl r w
    · next s hs =>
      have hto : s.requestor = window := by
        obtain ⟨hlt, hat, -⟩ := List.findIdx?_eq_some_iff_getElem.1 hi
        rw [List.getElem?_eq_getElem hlt, Option.some.injEq] at hs
        rw [hs, decide_eq_true_eq] at hat
        exact hat.1
      have hs' : s.requestor ≠ r := fun hr => h (hto.symm.trans hr)
      split
      · exact (aside_sending r w _ (filter_eraseIdx_of_not hs (by simpa using hs'))).trans (aside_forget r _ hs')
      · exact (aside_sending r w _ (filter_set_of_not hs (by simpa using hs') (by rw [Sending.next]; simpa using hs'))).trans
          (aside_request r _ hs')

theorem aside_handOff (reply : Reply) : Aside r w (w.handOff A reply) := by
  unfold handOff
  split
  · split
    · exact (aside_of_eq r w rfl rfl rfl rfl rfl : Aside r w { w with handingOff := some (reply.now + handoff) }).trans
        (aside_request r _ id)
    · exact aside_of_eq r w rfl rfl rfl rfl rfl
  · exact aside_of_eq r w rfl rfl rfl rfl rfl

theorem aside_command (c : Command) (reply : Reply) : Aside r w (w.command A c reply) := by
  cases c with
  | read asked =>
    unfold command
    dsimp only
    split
    · exact aside_reading r w w.reading _
    · exact aside_startRead A r w asked reply
  | set text =>
    exact (aside_of_eq r w rfl rfl rfl rfl rfl : Aside r w { w with claiming := some text }).trans (aside_request r _ id)
  | quit => exact aside_handOff A r w reply

theorem aside_foldl_forget {stalled : List Nat} (h : ∀ requestor ∈ stalled, requestor ≠ r) (w : Worker) :
    Aside r w (stalled.foldl (fun w requestor => w.forget requestor) w) := by
  induction stalled generalizing w with
  | nil => exact .refl r w
  | cons requestor stalled ih =>
    obtain ⟨hne, h⟩ := List.forall_mem_cons.1 h
    exact (aside_forget r w hne).trans (ih h _)

theorem aside_expire {reply : Reply} (h : ∀ s ∈ sendingTo r w, reply.now < s.progressAt + sendIdle) :
    Aside r w (w.expire A reply) := by
  have hfinish : Aside r w (if w.reading.any fun reading => reading.deadline ≤ reply.now then w.finish A none reply else w) := by
    split
    · exact aside_finish A r w none reply
    · exact .refl r w
  unfold expire
  dsimp only
  generalize (if w.reading.any fun reading => reading.deadline ≤ reply.now then w.finish A none reply else w) = u at hfinish
  rw [← hfinish.sending] at h
  refine hfinish.trans ((aside_sending r u (u.sending.filter fun s => reply.now < s.progressAt + sendIdle) ?_).trans ?_)
  · rw [List.filter_filter]
    refine List.filter_congr fun s hs => ?_
    by_cases hr : s.requestor = r
    · simpa [hr] using h s (List.mem_filter.2 ⟨hs, by simpa using hr⟩)
    · simp [hr]
  · have hothers : ∀ requestor ∈ (u.sending.filter fun s => s.progressAt + sendIdle ≤ reply.now).map Sending.requestor,
        requestor ≠ r := by
      intro requestor hreq hr
      obtain ⟨s, hs, rfl⟩ := List.mem_map.1 hreq
      obtain ⟨hs, hle⟩ := List.mem_filter.1 hs
      have hlt := h s (List.mem_filter.2 ⟨hs, by simpa using hr⟩)
      exact absurd (of_decide_eq_true hle) (Nat.not_le.2 hlt)
    generalize (u.sending.filter fun s => s.progressAt + sendIdle ≤ reply.now).map Sending.requestor = stalled at hothers
    exact aside_foldl_forget r hothers _

/-! ### A step for others -/

/-- What has nothing to do with `r`: the events of other windows, and no giving up a transfer to `r`. -/
def Spares : Act × Reply → Prop
  | (.event (.selectionRequest e), _) => e.requestor ≠ r
  | (.event (.propertyNotify window _ _ _), _) => window ≠ r
  | (.expire, reply) => ∀ s ∈ sendingTo r w, reply.now < s.progressAt + sendIdle
  | _ => True

/-- What neither loses the clipboard nor takes it for another text. -/
def HoldsOn : Act → Prop
  | .event (.selectionClear selection _) => selection ≠ A.get .clipboard
  | .event (.propertyNotify window atom _ _) => ¬(window = w.window ∧ atom = A.get .ventoClipboardTime)
  | _ => True

theorem apart_clear (selection time : Nat) (reply : Reply) : Apart r w (w.event A (.selectionClear selection time) reply) := by
  unfold event
  dsimp only
  split
  · exact ⟨rfl, rfl, rfl, [], (List.append_nil _).symm, fun _ h => absurd h List.not_mem_nil⟩
  · exact .refl r w

theorem aside_event_selectionNotify (requestor selection target property : Nat) (reply : Reply) :
    Aside r w (w.event A (.selectionNotify requestor selection target property) reply) := by
  unfold event
  dsimp only
  split
  · exact aside_of_eq r w rfl rfl rfl rfl rfl
  · exact aside_selectionNotify A r w requestor selection target property reply

theorem apart_propertyNotify {window : Nat} (h : window ≠ r) (atom time : Nat) (deleted : Bool) (reply : Reply) :
    Apart r w (w.event A (.propertyNotify window atom time deleted) reply) := by
  unfold event
  dsimp only
  split
  · split
    · exact apart_claim A r w time reply
    · split
      · split
        · exact (aside_incomingChunk A r w reply).toApart
        · exact .refl r w
      · exact .refl r w
  · split
    · exact (aside_outgoingChunk r w h atom reply).toApart
    · exact .refl r w

theorem apart_step {a : Act × Reply} (h : Spares r w a) : Apart r w (w.step A a) := by
  obtain ⟨a, reply⟩ := a
  have hclock : ∀ w' : Worker, Apart r w w' → Apart r w { w' with clock := w.clock + 1 } := fun _ h =>
    ⟨h.window, h.chunk, h.sending, h.requests⟩
  refine hclock _ ?_
  cases a with
  | event e =>
    cases e with
    | selectionNotify requestor selection target property =>
      exact (aside_event_selectionNotify A r w requestor selection target property reply).toApart
    | selectionRequest e => exact (aside_selectionRequest A r w h reply).toApart
    | selectionClear selection time => exact apart_clear A r w selection time reply
    | propertyNotify window atom time deleted => exact apart_propertyNotify A r w h atom time deleted reply
  | command c => exact (aside_command A r w c reply).toApart
  | expire => exact (aside_expire A r w h).toApart
  | take => exact (aside_of_eq r w rfl rfl rfl rfl rfl : Aside r w w.take).toApart

theorem owned_step {a : Act × Reply} (h : Spares r w a) (hk : HoldsOn A w a.1) : (w.step A a).owned = w.owned := by
  obtain ⟨a, reply⟩ := a
  cases a with
  | event e =>
    cases e with
    | selectionNotify requestor selection target property =>
      exact (aside_event_selectionNotify A r w requestor selection target property reply).owned
    | selectionRequest e => exact (aside_selectionRequest A r w h reply).owned
    | selectionClear selection time =>
      show (w.event A (.selectionClear selection time) reply).owned = w.owned
      unfold event
      dsimp only
      rw [if_neg fun hc => hk hc.1]
    | propertyNotify window atom time deleted =>
      show (w.event A (.propertyNotify window atom time deleted) reply).owned = w.owned
      unfold event
      dsimp only
      split
      · next hw =>
        rw [if_neg fun hc => hk ⟨hw, hc⟩]
        split
        · split
          · exact (aside_incomingChunk A r w reply).owned
          · rfl
        · rfl
      · split
        · exact (aside_outgoingChunk r w h atom reply).owned
        · rfl
  | command c => exact (aside_command A r w c reply).owned
  | expire => exact (aside_expire A r w h).owned
  | take => rfl

end Operations

end Worker

end Vento.Linux.Clipboard
