import Vento.Linux.ClipboardOthers
/-!
# The two ends of a transfer

What the owner gives a requestor that asks as this side does (`Gives`), and what comes of it where it is read (`Reads`,
`HasRead`): an event at a time, the targets first, and then the text in one property or in chunks.
-/

namespace Vento.Linux.Clipboard

open Vento.Lib

namespace Atoms

variable (A : Atoms)

theorem get_inj {a b : Name} (h : A.get a = A.get b) : a = b :=
  Option.some.inj ((A.name_get a).symm.trans ((congrArg A.name h).trans (A.name_get b)))

theorem get_ne {a b : Name} (h : a ≠ b) : A.get a ≠ A.get b := fun he => h (A.get_inj he)

end Atoms

/-- What is offered is read as UTF-8. -/
theorem best_targets (A : Atoms) : best (Worker.namesOf A (Worker.targetsBytes A)) = some .utf8String := by
  have hchunks : chunks 4 (Worker.targetsBytes A) =
      ([Name.targets, .timestamp] ++ servedAs.map fun s => s.1).map fun n => toLeBytes 4 (A.get n) :=
    chunks_flatMap (by decide) (fun n => toLeBytes_length 4 (A.get n)) _
  have hfour : ∀ n, A.name (fromLeBytes (toLeBytes 4 (A.get n))) = some n := fun n => by
    rw [fromLeBytes_toLeBytes (A.get_lt n), A.name_get]
  rw [Worker.namesOf, hchunks, List.filter_eq_self.2, List.filterMap_map]
  · rw [show (fun c => A.name (fromLeBytes c)) ∘ (fun n => toLeBytes 4 (A.get n)) = some from funext hfour, List.filterMap_some]
    decide
  · intro c hc
    obtain ⟨n, -, rfl⟩ := List.mem_map.1 hc
    simp [toLeBytes_length]

theorem decode_encode (text : Str) : decode (some .utf8String) (encode text .utf8) = text := by
  rw [decode, encode, Str.ofBytes?_bytes]
  exact if_neg (by decide)

namespace Worker

variable (A : Atoms) {r : Nat} {w : Worker}

/-! ## Giving -/

section Giving

variable {reply : Reply} (hsent : reply.sent = true)
include hsent

theorem convertFor_targets {owned : Owned} (howned : w.owned = some owned) :
    w.convertFor A ⟨r, A.get .clipboard, A.get .targets, A.get .ventoClipboard, 0⟩ (A.get .ventoClipboard) reply =
      (w.request (.changeProperty r (A.get .ventoClipboard) atomType (targetsBytes A)), true) := by
  simp [convertFor, howned, hsent]

theorem convertFor_text {owned : Owned} (howned : w.owned = some owned) (hlen : (encode owned.text .utf8).length ≤ w.chunk) :
    w.convertFor A ⟨r, A.get .clipboard, A.get .utf8String, A.get .ventoClipboard, 0⟩ (A.get .ventoClipboard) reply =
      (w.request (.changeProperty r (A.get .ventoClipboard) (A.get .utf8String) (encode owned.text .utf8)), true) := by
  have htargets := A.get_ne (show Name.utf8String ≠ .targets by decide)
  have htimestamp := A.get_ne (show Name.utf8String ≠ .timestamp by decide)
  have hserved : served .utf8String = some (.utf8String, .utf8) := by decide
  simp [convertFor, howned, htargets, htimestamp, A.name_get, hserved, hlen, hsent]

theorem convertFor_incr {owned : Owned} (howned : w.owned = some owned) (hlen : ¬(encode owned.text .utf8).length ≤ w.chunk)
    (hnone : sendingTo r w = []) :
    ∃ sending, w.convertFor A ⟨r, A.get .clipboard, A.get .utf8String, A.get .ventoClipboard, 0⟩ (A.get .ventoClipboard) reply =
        ({ (w.request (.listen r true)).request (.changeProperty r (A.get .ventoClipboard) (A.get .incr)
          (toLeBytes 4 (encode owned.text .utf8).length)) with sending := sending }, true) ∧
      (sending.filter fun s => s.requestor = r) =
        [⟨r, A.get .ventoClipboard, A.get .utf8String, encode owned.text .utf8, 0, false, reply.now⟩] := by
  have htargets := A.get_ne (show Name.utf8String ≠ .targets by decide)
  have htimestamp := A.get_ne (show Name.utf8String ≠ .timestamp by decide)
  have hserved : served .utf8String = some (.utf8String, .utf8) := by decide
  refine ⟨_, by simp [convertFor, howned, htargets, htimestamp, A.name_get, hserved, hlen, hsent]; rfl, ?_⟩
  rw [List.filter_append, List.filter_filter, List.append_eq_singleton_iff]
  refine .inl ⟨List.filter_eq_nil_iff.2 fun s hs hr => ?_, by simp⟩
  have hmem : s ∈ sendingTo r w := List.mem_filter.2 ⟨hs, (Bool.and_eq_true _ _ ▸ hr).1⟩
  rw [hnone] at hmem
  exact List.not_mem_nil hmem

end Giving

/-- What the owner does for the requestor in a step: what it asks of the server, and the transfers to it afterwards. -/
structure Gives (r : Nat) (w w' : Worker) (asked : List Request) (sending : List Sending) : Prop where
  window : w'.window = w.window
  chunk : w'.chunk = w.chunk
  owned : w'.owned = w.owned
  requests : w'.requests = w.requests ++ asked
  sending : sendingTo r w' = sending

/-- The requestor asking for the selection as `target`. -/
def asksFor (r : Nat) (target : Name) : SelectionRequest := ⟨r, A.get .clipboard, A.get target, A.get .ventoClipboard, 0⟩

def answersTo (r : Nat) (target : Name) : Request := .notify r (A.get .clipboard) (A.get target) (A.get .ventoClipboard) 0

theorem selectionRequest_asksFor {reply : Reply} {w' : Worker} {target : Name}
    (h : w.convertFor A (asksFor A r target) (A.get .ventoClipboard) reply = (w', true)) :
    w.selectionRequest A (asksFor A r target) reply = w'.request (answersTo A r target) := by
  have hproperty : (asksFor A r target).property ≠ 0 := Nat.pos_iff_ne_zero.1 (A.get_pos .ventoClipboard)
  unfold selectionRequest
  dsimp only
  rw [if_neg hproperty]
  exact (congrArg (fun p : Worker × Bool => p.1.request
    (.notify r (A.get .clipboard) (A.get target) (if p.2 then A.get .ventoClipboard else 0) 0)) h)

variable (reply : Reply)

theorem gives_targets {owned : Owned} (hsent : reply.sent = true) (howned : w.owned = some owned) :
    Gives r w (w.step A (.event (.selectionRequest (asksFor A r .targets)), reply))
      [.changeProperty r (A.get .ventoClipboard) atomType (targetsBytes A), answersTo A r .targets] (sendingTo r w) := by
  have hstep := selectionRequest_asksFor A (convertFor_targets A (r := r) hsent howned)
  simp only [step, event, hstep]
  exact ⟨rfl, rfl, rfl, List.append_assoc _ [_] [_], rfl⟩

theorem gives_text {owned : Owned} (hsent : reply.sent = true) (howned : w.owned = some owned)
    (hlen : (encode owned.text .utf8).length ≤ w.chunk) :
    Gives r w (w.step A (.event (.selectionRequest (asksFor A r .utf8String)), reply))
      [.changeProperty r (A.get .ventoClipboard) (A.get .utf8String) (encode owned.text .utf8), answersTo A r .utf8String]
      (sendingTo r w) := by
  have hstep := selectionRequest_asksFor A (convertFor_text A (r := r) hsent howned hlen)
  simp only [step, event, hstep]
  exact ⟨rfl, rfl, rfl, List.append_assoc _ [_] [_], rfl⟩

theorem gives_incr {owned : Owned} (hsent : reply.sent = true) (howned : w.owned = some owned)
    (hlen : ¬(encode owned.text .utf8).length ≤ w.chunk) (hnone : sendingTo r w = []) :
    Gives r w (w.step A (.event (.selectionRequest (asksFor A r .utf8String)), reply))
      [.listen r true, .changeProperty r (A.get .ventoClipboard) (A.get .incr) (toLeBytes 4 (encode owned.text .utf8).length),
        answersTo A r .utf8String]
      [⟨r, A.get .ventoClipboard, A.get .utf8String, encode owned.text .utf8, 0, false, reply.now⟩] := by
  obtain ⟨sending, hconvert, hsending⟩ := convertFor_incr A hsent howned hlen hnone
  have hstep := selectionRequest_asksFor A hconvert
  simp only [step, event, hstep]
  refine ⟨rfl, rfl, rfl, ?_, hsending⟩
  simp [request]

/-- The requestor's own transfer, where it has one. -/
theorem sending_split {s : Sending} (h : sendingTo r w = [s]) (hproperty : s.property = A.get .ventoClipboard) :
    ∃ before after, w.sending = before ++ s :: after ∧ (∀ x ∈ before, x.requestor ≠ r) ∧ s.requestor = r ∧
      (after.filter fun s => s.requestor = r) = [] ∧
      (w.sending.findIdx? fun s => s.requestor = r ∧ s.property = A.get .ventoClipboard) = some before.length := by
  obtain ⟨before, after, hsplit, hbefore, hs, hafter⟩ := List.filter_eq_cons_iff.1 h
  have hs : s.requestor = r := of_decide_eq_true hs
  have hbefore : ∀ x ∈ before, x.requestor ≠ r := fun x hx hr => hbefore x hx (decide_eq_true hr)
  refine ⟨before, after, hsplit, hbefore, hs, hafter, ?_⟩
  have hnone : (before.findIdx? fun s => s.requestor = r ∧ s.property = A.get .ventoClipboard) = none :=
    List.findIdx?_eq_none_iff.2 fun x hx => decide_eq_false fun hr => hbefore x hx hr.1
  rw [hsplit, List.findIdx?_append, hnone, List.findIdx?_cons]
  simp [hs, hproperty]

theorem gives_chunk {s : Sending} (hw : r ≠ w.window) (h : sendingTo r w = [s]) (hproperty : s.property = A.get .ventoClipboard)
    (hgoing : s.ended = false) (time : Nat) :
    Gives r w (w.step A (.event (.propertyNotify r (A.get .ventoClipboard) time true), reply))
      [.changeProperty r (A.get .ventoClipboard) s.type ((s.data.drop s.offset).take w.chunk)] [s.next w.chunk reply.now] := by
  obtain ⟨before, after, hsplit, hbefore, hs, hafter, hidx⟩ := sending_split A h hproperty
  have hat : w.sending[before.length]? = some s := by rw [hsplit]; simp
  have hstep : w.outgoingChunk r (A.get .ventoClipboard) reply =
      ({ w with sending := before ++ s.next w.chunk reply.now :: after } : Worker).request
        (.changeProperty r (A.get .ventoClipboard) s.type ((s.data.drop s.offset).take w.chunk)) := by
    simp only [outgoingChunk, hidx, hat, hgoing, hs, hproperty, Bool.false_eq_true, if_false]
    rw [hsplit, List.set_append_right _ _ (Nat.le_refl _), Nat.sub_self, List.set_cons_zero]
  simp only [step, event, if_neg hw, if_true, hstep]
  refine ⟨rfl, rfl, rfl, rfl, ?_⟩
  have hnone : (before.filter fun s => s.requestor = r) = [] :=
    List.filter_eq_nil_iff.2 fun x hx hr => hbefore x hx (of_decide_eq_true hr)
  have hnext : (s.next w.chunk reply.now).requestor = r := hs
  show (before ++ s.next w.chunk reply.now :: after).filter (fun s => s.requestor = r) = _
  rw [List.filter_append, hnone, List.filter_cons_of_pos (by simpa using hnext), hafter, List.nil_append]

theorem gives_last {s : Sending} (hw : r ≠ w.window) (h : sendingTo r w = [s]) (hproperty : s.property = A.get .ventoClipboard)
    (hended : s.ended = true) (time : Nat) :
    Gives r w (w.step A (.event (.propertyNotify r (A.get .ventoClipboard) time true), reply)) [.listen r false] [] := by
  obtain ⟨before, after, hsplit, hbefore, hs, hafter, hidx⟩ := sending_split A h hproperty
  have hat : w.sending[before.length]? = some s := by rw [hsplit]; simp
  have hnone : ((before ++ after).filter fun s => s.requestor = r) = [] := by
    rw [List.filter_append, hafter, List.append_nil]
    exact List.filter_eq_nil_iff.2 fun x hx hr => hbefore x hx (of_decide_eq_true hr)
  have hany : ((before ++ after).any fun s => s.requestor = r) = false :=
    List.any_eq_false.2 fun x hx => List.filter_eq_nil_iff.1 hnone x hx
  have hstep : w.outgoingChunk r (A.get .ventoClipboard) reply =
      ({ w with sending := before ++ after } : Worker).request (.listen r false) := by
    have herase : (before ++ s :: after).eraseIdx before.length = before ++ after := by
      rw [List.eraseIdx_append_of_length_le (Nat.le_refl _), Nat.sub_self, List.eraseIdx_cons_zero]
    simp only [outgoingChunk, hidx, hat, hended, hs, if_true, forget]
    simp only [hsplit, herase, hany, Bool.false_eq_true, if_false]
  simp only [step, event, if_neg hw, if_true, hstep]
  exact ⟨rfl, rfl, rfl, rfl, hnone⟩

theorem gives_nothing (hw : r ≠ w.window) (atom time : Nat) :
    Gives r w (w.step A (.event (.propertyNotify r atom time false), reply)) [] (sendingTo r w) := by
  simp only [step, event, if_neg hw, Bool.false_eq_true, if_false]
  exact ⟨rfl, rfl, rfl, (List.append_nil _).symm, rfl⟩

/-! ## Getting -/

/-- In the read `rd`, which has got to `step`, with `target` asked for. -/
structure Reads (rd : Reading) (before : List Answered) (step : Step) (target : Name) (w : Worker) : Prop where
  reading : w.reading = some { rd with step := step, asked := A.get target }
  queued : w.queued = none
  answers : w.answers = before

/-- The read `rd` was answered with the text. -/
structure HasRead (rd : Reading) (before : List Answered) (text : Str) (w : Worker) : Prop where
  reading : w.reading = none
  answers : w.answers = before ++ [⟨rd.why, some text, rd.began⟩]

/-- What is asked of the server in a step. -/
structure Wants (w w' : Worker) (asked : List Request) : Prop where
  window : w'.window = w.window
  requests : w'.requests = w.requests ++ asked

variable {rd : Reading} {before : List Answered} {at' : Step} {target : Name}

/-- A notification that there is nothing to do about: the property is gone, or what comes with it comes in an event of its own. -/
theorem step_noted (hw : w.window = r) (deleted : Bool) (hno : deleted = false → ∀ t buf, w.reading.map Reading.step ≠ some (.incr t buf)) (time : Nat) :
    w.step A (.event (.propertyNotify r (A.get .ventoClipboard) time deleted), reply) = { w with clock := w.clock + 1 } := by
  subst hw
  have hatom := A.get_ne (show Name.ventoClipboard ≠ .ventoClipboardTime by decide)
  cases deleted with
  | true => simp [step, event, hatom]
  | false =>
    simp only [step, event, hatom, if_true, if_false, Bool.not_false, and_self]
    split
    · next t buf h => exact absurd h (hno rfl t buf)
    · rfl

theorem takeProperty_eq {type : Nat} {bytes : List UInt8} (hproperty : reply.property = some (type, bytes, false)) (htype : 0 < type) :
    w.takeProperty A reply = (w.request (.takeProperty (A.get .ventoClipboard)), some (type, bytes)) := by
  simp [takeProperty, hproperty, Nat.ne_of_gt htype]

theorem event_selectionNotify (hw : w.window = r) (target : Name) :
    w.event A (.selectionNotify r (A.get .clipboard) (A.get target) (A.get .ventoClipboard)) reply =
      w.selectionNotify A r (A.get .clipboard) (A.get target) (A.get .ventoClipboard) reply := by
  subst hw
  have hmanager := A.get_ne (show Name.clipboard ≠ .clipboardManager by decide)
  simp [event, hmanager]

theorem targets_come (hw : w.window = r) {type : Nat} (h : Reads A rd before .targets .targets w) (htype : 0 < type)
    (hproperty : reply.property = some (type, targetsBytes A, false)) :
    let w' := w.step A (.event (.selectionNotify r (A.get .clipboard) (A.get .targets) (A.get .ventoClipboard)), reply)
    Wants w w' [.takeProperty (A.get .ventoClipboard),
        .convertSelection (A.get .clipboard) (A.get .utf8String) (A.get .ventoClipboard) 0] ∧
      Reads A rd before .data .utf8String w' := by
  subst hw
  have hrefused : ¬A.get .ventoClipboard = 0 := Nat.pos_iff_ne_zero.1 (A.get_pos _)
  simp only [step, event_selectionNotify A reply rfl]
  simp only [selectionNotify, h.reading, ne_eq, not_true_eq_false, or_self, if_false, hrefused, takeProperty_eq A reply hproperty htype,
    Option.elim_some, best_targets]
  refine ⟨⟨rfl, List.append_assoc _ [_] [_]⟩, ⟨?_, h.queued, h.answers⟩⟩
  simp [convert, setStep, request, h.reading]

theorem finish_reads (h : Reads A rd before at' target w) (text : Str) :
    Wants w (w.finish A (some text) reply) [.deleteProperty (A.get .ventoClipboard)] ∧
      HasRead rd before text (w.finish A (some text) reply) := by
  simp only [finish, h.reading]
  simp only [request, h.queued]
  exact ⟨⟨rfl, rfl⟩, ⟨rfl, by simp [answer, h.answers]⟩⟩

theorem Reads.took (h : Reads A rd before at' target w) (q : Request) : Reads A rd before at' target (w.request q) :=
  ⟨h.reading, h.queued, h.answers⟩

theorem text_comes (hw : w.window = r) (h : Reads A rd before .data .utf8String w) {text : Str}
    (hproperty : reply.property = some (A.get .utf8String, encode text .utf8, false)) :
    let w' := w.step A (.event (.selectionNotify r (A.get .clipboard) (A.get .utf8String) (A.get .ventoClipboard)), reply)
    Wants w w' [.takeProperty (A.get .ventoClipboard), .deleteProperty (A.get .ventoClipboard)] ∧ HasRead rd before text w' := by
  subst hw
  have hrefused : ¬A.get .ventoClipboard = 0 := Nat.pos_iff_ne_zero.1 (A.get_pos _)
  have hincr := A.get_ne (show Name.utf8String ≠ .incr by decide)
  simp only [step, event_selectionNotify A reply rfl]
  simp only [selectionNotify, h.reading, ne_eq, not_true_eq_false, or_self, if_false, hrefused, received,
    takeProperty_eq A reply hproperty (A.get_pos _), hincr, A.name_get, decode_encode]
  obtain ⟨hasks, hread⟩ := finish_reads A reply (h.took A (.takeProperty (A.get .ventoClipboard))) text
  exact ⟨⟨hasks.window, hasks.requests.trans (List.append_assoc _ [_] [_])⟩, ⟨hread.reading, hread.answers⟩⟩

theorem incr_comes (hw : w.window = r) (h : Reads A rd before .data .utf8String w) {bytes : List UInt8}
    (hproperty : reply.property = some (A.get .incr, bytes, false)) :
    let w' := w.step A (.event (.selectionNotify r (A.get .clipboard) (A.get .utf8String) (A.get .ventoClipboard)), reply)
    Wants w w' [.takeProperty (A.get .ventoClipboard)] ∧ Reads A rd before (.incr 0 []) .utf8String w' := by
  subst hw
  have hrefused : ¬A.get .ventoClipboard = 0 := Nat.pos_iff_ne_zero.1 (A.get_pos _)
  simp only [step, event_selectionNotify A reply rfl]
  simp only [selectionNotify, h.reading, ne_eq, not_true_eq_false, or_self, if_false, hrefused, received,
    takeProperty_eq A reply hproperty (A.get_pos _), if_true]
  refine ⟨⟨rfl, rfl⟩, ⟨?_, h.queued, h.answers⟩⟩
  simp [setStep, request, h.reading]

theorem event_put (hw : w.window = r) {t : Nat} {buf : List UInt8} (h : Reads A rd before (.incr t buf) target w) (time : Nat) :
    w.event A (.propertyNotify r (A.get .ventoClipboard) time false) reply = w.incomingChunk A reply := by
  subst hw
  have hatom := A.get_ne (show Name.ventoClipboard ≠ .ventoClipboardTime by decide)
  simp [event, hatom, h.reading]

theorem chunk_comes (hw : w.window = r) {t type : Nat} {buf bytes : List UInt8} (h : Reads A rd before (.incr t buf) target w) (htype : 0 < type)
    (hproperty : reply.property = some (type, bytes, false)) (hbytes : bytes ≠ []) (hlen : (buf ++ bytes).length ≤ maxText)
    (time : Nat) :
    let w' := w.step A (.event (.propertyNotify r (A.get .ventoClipboard) time false), reply)
    Wants w w' [.takeProperty (A.get .ventoClipboard)] ∧ Reads A rd before (.incr type (buf ++ bytes)) target w' := by
  have hreading : (w.request (.takeProperty (A.get .ventoClipboard))).reading.map Reading.step = some (.incr t buf) := by
    rw [(h.took A _).reading]
    rfl
  simp only [step, event_put A reply hw h]
  simp only [incomingChunk, takeProperty_eq A reply hproperty htype, hreading, hbytes, Nat.not_lt.2 hlen, if_false]
  refine ⟨⟨rfl, rfl⟩, ⟨?_, h.queued, h.answers⟩⟩
  simp [setStep, request, h.reading]

theorem chunks_end (hw : w.window = r) {t type : Nat} {buf : List UInt8} (h : Reads A rd before (.incr t buf) target w) (htype : 0 < type)
    (hproperty : reply.property = some (type, [], false)) (time : Nat) :
    let w' := w.step A (.event (.propertyNotify r (A.get .ventoClipboard) time false), reply)
    Wants w w' [.takeProperty (A.get .ventoClipboard), .deleteProperty (A.get .ventoClipboard)] ∧
      HasRead rd before (decode (A.name t) buf) w' := by
  have hreading : (w.request (.takeProperty (A.get .ventoClipboard))).reading.map Reading.step = some (.incr t buf) := by
    rw [(h.took A _).reading]
    rfl
  simp only [step, event_put A reply hw h]
  simp only [incomingChunk, takeProperty_eq A reply hproperty htype, hreading, if_true]
  obtain ⟨hasks, hread⟩ := finish_reads A reply (h.took A (.takeProperty (A.get .ventoClipboard))) (decode (A.name t) buf)
  exact ⟨⟨hasks.window, hasks.requests.trans (List.append_assoc _ [_] [_])⟩, ⟨hread.reading, hread.answers⟩⟩

end Worker

end Vento.Linux.Clipboard
