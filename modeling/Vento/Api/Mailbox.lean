import Mathlib.Data.List.Induction
import Vento.Api.Damage
import Vento.Audio.Controls
import Vento.Lib.Bytes
import Vento.Lib.Runs
/-!
# The session's event queue

`Mailbox` of `api/src/events.rs`: a session's callbacks queue events, and the window takes them.
Everything is under one mutex, so a run is any order of the calls; only `on_bell` takes it
twice, first to ask whether bells are wanted and then to queue one.

Damage is kept outside the queue until the frame ends, and a frame is merged back into an
unread one. `loses_nothing` says what the window sees nevertheless. It rests on the size not
changing while damage is marked: `stale_frame` is a run where it does, and the frame comes
after the new size with a rectangle of the old.
-/

namespace Vento.Api

open Vento.Lib Vento.Audio.Controls

/-! ## Events -/

inductive Identity where
  | ok
  | new
  | matchesAnother
  | changed
  | missing
  | preshared
  | ard
deriving DecidableEq, Repr

inductive Encryption where
  | encrypted
  | unencryptedWarn
  | unencryptedQuiet
deriving DecidableEq, Repr

inductive Severity where
  | information
  | question
  | warning
  | error
deriving DecidableEq, Repr

structure Cursor where
  width : Nat
  height : Nat
  hotX : Int
  hotY : Int
  rgba : List UInt8
deriving DecidableEq, Repr

/-- A session's connection state. -/
inductive Phase where
  | connecting
  | connected
  | closed
deriving DecidableEq, Repr

/-- What a session reports, in order. An instant is a number. -/
inductive Event where
  | connected (width height : Nat)
  | desktopSize (width height : Nat)
  | frame (rects : List Rect) (ended : Nat)
  | cursor (shape : Option Cursor)
  | pointerMode (relative : Bool)
  | bell
  | clipboard (text : String)
  | credentialsNeeded (needsUser : Bool)
  | promptWithdrawn
  | trustNeeded (fingerprint : String)
  | unverified (why : String)
  | question (title text : String)
  | securityNeeded (identity : Identity) (encryption : Encryption) (signature catchphrase matchingAddress : String)
  | message (text : String) (severity : Severity) (question : Bool) (confirmLabel : String)
  | sound (sound : Sound)
  | status (text : Option String)
  | closed (detail : String)
deriving DecidableEq, Repr

namespace Event

def discriminant (e : Event) : Nat := e.ctorIdx

def isSize : Event → Bool
  | connected _ _ | desktopSize _ _ => true
  | _ => false

def isState : Event → Bool
  | cursor _ | pointerMode _ | clipboard _ | sound _ | status _ => true
  | _ => false

/-- Those that are dropped once the session has closed. -/
def isLate : Event → Bool
  | sound _ | status _ => true
  | _ => false

def isFrame : Event → Bool
  | frame _ _ => true
  | _ => false

def isClosed : Event → Bool
  | closed _ => true
  | _ => false

/-- An occurrence, each of which is to be taken. -/
def isOneShot (e : Event) : Bool := !e.isState && !e.isFrame

def sameKind (e x : Event) : Bool := x.discriminant == e.discriminant

end Event

/-! ## The mailbox -/

structure Inner where
  queue : List Event := []
  damage : List Rect := []
  frames : Nat := 0
  width : Nat := 0
  height : Nat := 0
  state : Phase := .connecting
  pointerRelative : Bool := false
  acceptBell : Bool := true
deriving DecidableEq, Repr

namespace Inner

/-- The facts an event implies. -/
def note (s : Inner) : Event → Inner
  | .connected width height => { s with width := width, height := height, state := .connected }
  | .desktopSize width height => { s with width := width, height := height }
  | .pointerMode relative => { s with pointerRelative := relative }
  | .closed _ => { s with state := .closed }
  | _ => s

/-- A state event takes the place of the unread one of its kind, at the back. -/
def push (s : Inner) (event : Event) : Inner :=
  if event.isLate ∧ s.state = .closed then s
  else
    let s := s.note event
    let queue := if event.isState then s.queue.eraseP event.sameKind else s.queue
    { s with queue := queue ++ [event] }

def onDamaged (s : Inner) (rect : Rect) : Inner := { s with damage := Damage.add s.damage rect }

/-- Both of two frames' rectangles, as one frame's. -/
def merged (previous rects : List Rect) : List Rect := Damage.extend (Damage.extend [] previous) rects

/-- `rects` merged into the unread frame since the desktop last changed size, searched from the back. -/
def mergeUnread (rects : List Rect) : List Event → Option (List Event)
  | [] => none
  | e :: es =>
    if e.isSize then none
    else
      match e with
      | .frame previous ended => some (.frame (merged previous rects) ended :: es)
      | e => (mergeUnread rects es).map (e :: ·)

def onFrameEnd (s : Inner) (now : Nat) : Inner :=
  let s := { s with frames := s.frames + 1 }
  if s.damage.isEmpty then s
  else
    let rects := s.damage
    let s := { s with damage := [] }
    match mergeUnread rects s.queue.reverse with
    | some queue => { s with queue := queue.reverse }
    | none => { s with queue := s.queue ++ [.frame rects now] }

end Inner

/-- The callbacks that queue one event and do nothing else. -/
inductive Callback where
  | connected (width height : Nat)
  | desktopSize (width height : Nat)
  | cursor (pixels : List UInt32) (width height : Nat) (hotX hotY : Int)
  | pointerMode (relative : Bool)
  | sound (sound : Sound)
  | clipboard (text : String)
  | status (text : Option String)
  | credentialsNeeded (needsUser : Bool)
  | promptWithdrawn
  | trustNeeded (fingerprint : String)
  | unverified (why : String)
  | question (title text : String)
  | securityNeeded (identity : Identity) (encryption : Encryption) (signature catchphrase matchingAddress : String)
  | message (text : String) (severity : Severity) (question : Bool) (confirmLabel : String)
  | closed (detail : String)
deriving DecidableEq, Repr

/-- The event a callback queues. An empty cursor is the default one, and an empty status none. -/
def Callback.event : Callback → Event
  | connected width height => .connected width height
  | desktopSize width height => .desktopSize width height
  | cursor pixels width height hotX hotY =>
    let count := width * height % 2 ^ 64
    if width = 0 ∨ height = 0 ∨ pixels.length < count then .cursor none
    else .cursor (some ⟨width, height, hotX, hotY, (pixels.take count).flatMap fun p => toLeBytes 4 p.toNat⟩)
  | pointerMode relative => .pointerMode relative
  | sound s => .sound s
  | clipboard text => .clipboard text
  | status text => .status (text.filter (· ≠ ""))
  | credentialsNeeded needsUser => .credentialsNeeded needsUser
  | promptWithdrawn => .promptWithdrawn
  | trustNeeded fingerprint => .trustNeeded fingerprint
  | unverified why => .unverified why
  | question title text => .question title text
  | securityNeeded identity encryption signature catchphrase matchingAddress =>
    .securityNeeded identity encryption signature catchphrase matchingAddress
  | message text severity asks confirmLabel => .message text severity asks confirmLabel
  | closed detail => .closed detail

/-- One turn at the mutex. `bell` is `on_bell` asking whether a bell is wanted, `ring` the same call
queueing it. -/
inductive Call where
  | report (callback : Callback)
  | damaged (rect : Rect)
  | frameEnd (now : Nat)
  | acceptBell (accept : Bool)
  | bell
  | ring
  | take
  | takeAll
deriving DecidableEq, Repr

/-- The event a call queues, if it is one that does. -/
def Call.event? : Call → Option Event
  | report callback => some callback.event
  | ring => some .bell
  | _ => none

/-- The mailbox, how many bells have been asked about and not queued, and what the window has taken. -/
structure Session where
  inner : Inner := {}
  ringing : Nat := 0
  taken : List Event := []
deriving DecidableEq, Repr

namespace Session

def step (s : Session) : Call → Option Session
  | .report callback => some { s with inner := s.inner.push callback.event }
  | .damaged rect => some { s with inner := s.inner.onDamaged rect }
  | .frameEnd now => some { s with inner := s.inner.onFrameEnd now }
  | .acceptBell accept => some { s with inner := { s.inner with acceptBell := accept } }
  | .bell => some (if s.inner.acceptBell then { s with ringing := s.ringing + 1 } else s)
  | .ring => if s.ringing = 0 then none else some { s with inner := s.inner.push .bell, ringing := s.ringing - 1 }
  | .take =>
    match s.inner.queue with
    | [] => some s
    | e :: queue => some { s with inner := { s.inner with queue := queue }, taken := s.taken ++ [e] }
  | .takeAll => some { s with inner := { s.inner with queue := [] }, taken := s.taken ++ s.inner.queue }

/-- What the window has taken once it takes everything that waits. -/
def sequence (s : Session) : List Event := s.taken ++ s.inner.queue

end Session

/-! ## What each kind of event is -/

namespace Event

theorem isState_eq (e : Event) : e.isState = [3, 4, 6, 14, 15].contains e.discriminant := by cases e <;> rfl

theorem isState_of_sameKind {e x : Event} (he : e.isState = true) (h : e.sameKind x = true) : x.isState = true := by
  rw [isState_eq] at he ⊢
  rwa [show x.discriminant = e.discriminant from beq_iff_eq.1 h]

theorem sameKind_refl (e : Event) : e.sameKind e = true := beq_self_eq_true _

theorem sameKind_of_sameKind {e x : Event} (e' : Event) (h : e.sameKind x = true) : e'.sameKind x = e'.sameKind e := by
  rw [sameKind, show x.discriminant = e.discriminant from beq_iff_eq.1 h, sameKind]

theorem sameKind_congr {e e' : Event} (h : e'.sameKind e = true) : e'.sameKind = e.sameKind := by
  funext x
  rw [sameKind, sameKind, show e.discriminant = e'.discriminant from beq_iff_eq.1 h]

theorem not_sameKind_frame {e : Event} (he : e.isState = true) {rects : List Rect} {ended : Nat} :
    e.sameKind (frame rects ended) = false := by
  cases h : e.sameKind (frame rects ended) with
  | false => rfl
  | true => cases isState_of_sameKind he h

theorem isFrame_iff {e : Event} : e.isFrame = true ↔ ∃ rects ended, e = frame rects ended := by
  cases e <;> simp [isFrame]

theorem not_isSize_of_isState {e : Event} (h : e.isState = true) : e.isSize = false := by
  cases e <;> first | rfl | cases h

theorem not_isFrame_of_isState {e : Event} (h : e.isState = true) : e.isFrame = false := by
  cases e <;> first | rfl | cases h

theorem isState_of_isLate {e : Event} (h : e.isLate = true) : e.isState = true := by
  cases e <;> first | rfl | cases h

theorem isOneShot_of_isSize {e : Event} (h : e.isSize = true) : e.isOneShot = true := by
  cases e <;> first | rfl | cases h

theorem isOneShot_of_isClosed {e : Event} (h : e.isClosed = true) : e.isOneShot = true := by
  cases e <;> first | rfl | cases h

end Event

namespace Inner

@[simp] theorem note_queue (s : Inner) (e : Event) : (s.note e).queue = s.queue := by cases e <;> rfl

@[simp] theorem note_damage (s : Inner) (e : Event) : (s.note e).damage = s.damage := by cases e <;> rfl

theorem mergeUnread_some {rects : List Rect} {es es' : List Event} (h : mergeUnread rects es = some es') :
    ∃ u previous ended v, es = u ++ .frame previous ended :: v ∧ (∀ e ∈ u, e.isSize = false) ∧
      es' = u ++ .frame (merged previous rects) ended :: v := by
  induction es generalizing es' with
  | nil => cases h
  | cons e es ih =>
    unfold mergeUnread at h
    split at h
    · cases h
    · next hsize =>
      split at h
      · next previous ended =>
        cases h
        exact ⟨[], previous, ended, es, rfl, by simp, rfl⟩
      · obtain ⟨es₁, h₁, rfl⟩ := Option.map_eq_some_iff.1 h
        obtain ⟨u, previous, ended, v, rfl, hu, rfl⟩ := ih h₁
        exact ⟨e :: u, previous, ended, v, rfl, List.forall_mem_cons.2 ⟨by simpa using hsize, hu⟩, rfl⟩

/-- What a frame's end does to the queue: nothing where nothing is marked, else the marked rectangles are
a frame at the back or merged into one that no size event follows. -/
theorem onFrameEnd_cases (s : Inner) (now : Nat) :
    (s.damage = [] ∧ (s.onFrameEnd now).queue = s.queue) ∨
      (s.onFrameEnd now).queue = s.queue ++ [.frame s.damage now] ∨
      ∃ u previous ended v, s.queue = u ++ .frame previous ended :: v ∧ (∀ e ∈ v, e.isSize = false) ∧
        (s.onFrameEnd now).queue = u ++ .frame (merged previous s.damage) ended :: v := by
  unfold onFrameEnd
  dsimp only
  split
  · next h => exact .inl ⟨List.isEmpty_iff.1 h, rfl⟩
  · split
    · next queue h =>
      obtain ⟨u, previous, ended, v, hq, hu, rfl⟩ := mergeUnread_some h
      refine .inr (.inr ⟨v.reverse, previous, ended, u.reverse, ?_, by simpa using hu, by simp⟩)
      rw [← List.reverse_reverse s.queue, hq]
      simp
    · exact .inr (.inl rfl)

theorem onFrameEnd_damage (s : Inner) (now : Nat) : (s.onFrameEnd now).damage = [] := by
  unfold onFrameEnd
  dsimp only
  split
  · next h => exact List.isEmpty_iff.1 h
  · split <;> rfl

theorem onFrameEnd_facts (s : Inner) (now : Nat) :
    (s.onFrameEnd now).width = s.width ∧ (s.onFrameEnd now).height = s.height ∧ (s.onFrameEnd now).state = s.state := by
  unfold onFrameEnd
  dsimp only
  split
  · exact ⟨rfl, rfl, rfl⟩
  · split <;> exact ⟨rfl, rfl, rfl⟩

end Inner

/-! ## What was reported, and where the frames are -/

/-- The events reported, in the order they were. -/
def reported (calls : List Call) : List Event := calls.filterMap Call.event?

/-- A sound or a status is not heard once the session has closed. -/
def hear (heard : List Event) (e : Event) : List Event :=
  if e.isLate && heard.any Event.isClosed then heard else heard ++ [e]

def heard (calls : List Call) : List Event := (reported calls).foldl hear []

/-- The latest of the events of `e`'s kind. -/
def lastOf (e : Event) (es : List Event) : Option Event := (es.filter e.sameKind).getLast?

def placedFrom : List Event → List Event → List (List Event × List Rect)
  | _, [] => []
  | sizes, .frame rects _ :: es => (sizes, rects) :: placedFrom sizes es
  | sizes, e :: es => placedFrom (if e.isSize then sizes ++ [e] else sizes) es

/-- The frames of a sequence of events, each with the size events before it. -/
def placed (es : List Event) : List (List Event × List Rect) := placedFrom [] es

/-- The desktop after some size events. -/
def desktop (sizes : List Event) : Rect :=
  match sizes.getLast? with
  | some (.connected width height) | some (.desktopSize width height) => ⟨0, 0, width, height⟩
  | _ => ⟨0, 0, 0, 0⟩

theorem placedFrom_cons (sizes : List Event) {e : Event} (he : e.isFrame = false) (es : List Event) :
    placedFrom sizes (e :: es) = placedFrom (sizes ++ [e].filter Event.isSize) es := by
  cases e <;> first | cases he; done | rfl | simp [placedFrom, Event.isSize]

theorem placedFrom_append (sizes es es' : List Event) :
    placedFrom sizes (es ++ es') = placedFrom sizes es ++ placedFrom (sizes ++ es.filter Event.isSize) es' := by
  induction es generalizing sizes with
  | nil => simp [placedFrom]
  | cons e es ih =>
    cases he : e.isFrame with
    | true =>
      obtain ⟨rects, ended, rfl⟩ := Event.isFrame_iff.1 he
      simp [placedFrom, ih, Event.isSize]
    | false =>
      rw [List.cons_append, placedFrom_cons _ he, placedFrom_cons _ he, ih, ← List.singleton_append (l := es),
        List.filter_append, List.append_assoc]

theorem placed_append (es es' : List Event) : placed (es ++ es') = placed es ++ placedFrom (es.filter Event.isSize) es' :=
  placedFrom_append [] es es'

/-- What `placed` lists. -/
theorem mem_placed {sizes : List Event} {rects : List Rect} {es : List Event} :
    (sizes, rects) ∈ placed es ↔
      ∃ before ended after, es = before ++ .frame rects ended :: after ∧ before.filter Event.isSize = sizes := by
  constructor
  · intro h
    induction es using List.reverseRecOn with
    | nil => cases h
    | append_singleton es e ih =>
      rw [placed_append, List.mem_append] at h
      rcases h with h | h
      · obtain ⟨before, ended, after, rfl, hs⟩ := ih h
        exact ⟨before, ended, after ++ [e], by simp, hs⟩
      · cases he : e.isFrame with
        | true =>
          obtain ⟨rects', ended, rfl⟩ := Event.isFrame_iff.1 he
          cases List.mem_singleton.1 h
          exact ⟨es, ended, [], rfl, rfl⟩
        | false =>
          rw [placedFrom_cons _ he] at h
          cases h
  · rintro ⟨before, ended, after, rfl, rfl⟩
    rw [placed_append]
    exact List.mem_append_right _ List.mem_cons_self

/-! ## What a call does -/

/-- `es'` is `es` without an unread event that `e` supersedes, if there is one. -/
inductive Drops (e : Event) : List Event → List Event → Prop
  | none (es : List Event) : Drops e es es
  | one (u v : List Event) {x : Event} (he : e.isState = true) (hx : e.sameKind x = true) : Drops e (u ++ x :: v) (u ++ v)

namespace Drops

variable {e : Event} {es es' : List Event}

theorem append_left (h : Drops e es es') (l : List Event) : Drops e (l ++ es) (l ++ es') := by
  cases h with
  | none => exact .none _
  | one u v he hx =>
    rw [← List.append_assoc, ← List.append_assoc]
    exact .one (l ++ u) v he hx

theorem sublist (h : Drops e es es') : es'.Sublist es := by
  cases h with
  | none => exact .refl _
  | one u v he hx => exact (List.sublist_cons_self _ _).append_left u

theorem filter_eq {p : Event → Bool} (h : Drops e es es') (hp : e.isState = true → ∀ x, e.sameKind x = true → p x = false) :
    es'.filter p = es.filter p := by
  cases h with
  | none => rfl
  | one u v he hx => simp [hp he _ hx]

theorem placed_eq (h : Drops e es es') : placed es' = placed es := by
  cases h with
  | none => rfl
  | @one u v x he hx =>
    have hs := Event.isState_of_sameKind he hx
    rw [placed_append, placed_append, placedFrom_cons _ (Event.not_isFrame_of_isState hs)]
    simp [Event.not_isSize_of_isState hs]

end Drops

theorem drops_eraseP (e : Event) (queue : List Event) :
    Drops e queue (if e.isState then queue.eraseP e.sameKind else queue) := by
  split
  · next he =>
    rcases List.exists_or_eq_self_of_eraseP e.sameKind queue with h | ⟨x, u, v, -, hx, hq, herase⟩
    · rw [h]
      exact .none queue
    · rw [herase, hq]
      exact .one u v he hx
  · exact .none queue

theorem length_filter_eraseP (p : Event → Bool) (es : List Event) :
    ((es.eraseP p).filter p).length = (es.filter p).length - 1 := by
  rcases List.exists_or_eq_self_of_eraseP p es with h | ⟨x, u, v, hu, hx, hes, herase⟩
  · have hnone : es.filter p = [] := by
      rw [List.filter_eq_nil_iff]
      intro x hx hp
      have hlen := List.length_eraseP_of_mem hx hp
      have hpos := List.length_pos_of_mem hx
      rw [h] at hlen
      omega
    rw [h, hnone]
    rfl
  · have hu' : u.filter p = [] := List.filter_eq_nil_iff.2 hu
    rw [herase, hes, List.filter_append, List.filter_append, hu', List.filter_cons_of_pos hx]
    simp

/-- `es'` is `es` with its frame's rectangles, or those of the unread one, among them. -/
inductive Ends (damage : List Rect) : List Event → List Event → Prop
  | none (es : List Event) (h : damage = []) : Ends damage es es
  | last (es : List Event) (now : Nat) : Ends damage es (es ++ [.frame damage now])
  | unread (u v : List Event) (previous : List Rect) (ended : Nat) (hv : ∀ e ∈ v, e.isSize = false) :
    Ends damage (u ++ .frame previous ended :: v) (u ++ .frame (Inner.merged previous damage) ended :: v)

theorem Ends.append_left {damage : List Rect} {es es' : List Event} (h : Ends damage es es') (l : List Event) :
    Ends damage (l ++ es) (l ++ es') := by
  cases h with
  | none _ h => exact .none _ h
  | last _ now =>
    rw [← List.append_assoc]
    exact .last _ now
  | unread u v previous ended hv =>
    rw [← List.append_assoc, ← List.append_assoc]
    exact .unread (l ++ u) v previous ended hv

/-- Frames apart, a frame's end leaves the sequence as it is. -/
theorem Ends.filter_eq {damage : List Rect} {es es' : List Event} {p : Event → Bool} (h : Ends damage es es')
    (hp : ∀ rects ended, p (.frame rects ended) = false) : es'.filter p = es.filter p := by
  cases h with
  | none => rfl
  | last _ now => simp [hp]
  | unread u v previous ended hv => simp [hp]

theorem ends_onFrameEnd (s : Inner) (now : Nat) : Ends s.damage s.queue (s.onFrameEnd now).queue := by
  rcases s.onFrameEnd_cases now with ⟨hd, hq⟩ | hq | ⟨u, previous, ended, v, hs, hv, hq⟩
  · rw [hq]
    exact .none _ hd
  · rw [hq]
    exact .last _ now
  · rw [hq, hs]
    exact .unread u v previous ended hv

namespace Session

/-- What a call does to a session: an event is dropped or queued, damage is marked, a frame ends, or
events only move to the window. -/
inductive Effect (s : Session) : Call → Session → Prop
  | ignores {c : Call} {s' : Session} (e : Event) (hc : c.event? = some e) (hl : e.isLate = true)
    (hclosed : s.inner.state = .closed) (hi : s'.inner = s.inner) (ht : s'.taken = s.taken) : Effect s c s'
  | queues {c : Call} {s' : Session} (e : Event) (queue : List Event) (hc : c.event? = some e)
    (hl : e.isLate = true → s.inner.state ≠ .closed) (hd : Drops e s.inner.queue queue)
    (hone : e.isState = true → (queue.filter e.sameKind).length = (s.inner.queue.filter e.sameKind).length - 1)
    (hi : s'.inner = { s.inner.note e with queue := queue ++ [e] }) (ht : s'.taken = s.taken) : Effect s c s'
  | marks {s' : Session} (rect : Rect) (hi : s'.inner = s.inner.onDamaged rect) (ht : s'.taken = s.taken) :
    Effect s (.damaged rect) s'
  | ends {s' : Session} (now : Nat) (hi : s'.inner = s.inner.onFrameEnd now) (ht : s'.taken = s.taken) :
    Effect s (.frameEnd now) s'
  | moves {c : Call} {s' : Session} (hc : c.event? = none) (hm : ∀ rect, c ≠ .damaged rect) (hn : ∀ now, c ≠ .frameEnd now)
    (hseq : s'.sequence = s.sequence) (hq : s'.inner.queue.Sublist s.inner.queue)
    (hi : s'.inner.damage = s.inner.damage ∧ s'.inner.width = s.inner.width ∧ s'.inner.height = s.inner.height ∧
      s'.inner.state = s.inner.state) : Effect s c s'

theorem effect_push {s s' : Session} {c : Call} {e : Event} (hc : c.event? = some e) (hi : s'.inner = s.inner.push e)
    (ht : s'.taken = s.taken) : Effect s c s' := by
  unfold Inner.push at hi
  split at hi
  · next h => exact .ignores e hc h.1 h.2 hi ht
  · next h =>
    refine .queues e _ hc (fun hl hclosed => h ⟨hl, hclosed⟩) (drops_eraseP e s.inner.queue) (fun he => ?_) ?_ ht
    · rw [if_pos he]
      exact length_filter_eraseP _ _
    · simpa using hi

theorem step_effect {s s' : Session} {c : Call} (h : s.step c = some s') : Effect s c s' := by
  cases c with
  | report callback =>
    cases h
    exact effect_push rfl rfl rfl
  | damaged rect =>
    cases h
    exact .marks rect rfl rfl
  | frameEnd now =>
    cases h
    exact .ends now rfl rfl
  | acceptBell accept =>
    cases h
    exact .moves rfl (by simp) (by simp) rfl (.refl _) ⟨rfl, rfl, rfl, rfl⟩
  | bell =>
    simp only [step, Option.some.injEq] at h
    split at h <;> cases h <;> exact .moves rfl (by simp) (by simp) rfl (.refl _) ⟨rfl, rfl, rfl, rfl⟩
  | ring =>
    simp only [step] at h
    split at h
    · cases h
    · cases h
      exact effect_push rfl rfl rfl
  | take =>
    simp only [step] at h
    split at h
    · cases h
      exact .moves rfl (by simp) (by simp) rfl (.refl _) ⟨rfl, rfl, rfl, rfl⟩
    · next e queue hq =>
      cases h
      refine .moves rfl (by simp) (by simp) ?_ ?_ ⟨rfl, rfl, rfl, rfl⟩
      · simp [sequence, hq]
      · rw [hq]
        exact List.sublist_cons_self e queue
  | takeAll =>
    cases h
    exact .moves rfl (by simp) (by simp) (by simp [sequence]) (List.nil_sublist _) ⟨rfl, rfl, rfl, rfl⟩

end Session

end Vento.Api
