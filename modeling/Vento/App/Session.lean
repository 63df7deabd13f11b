import Vento.App.Json
import Vento.Lib.Runs
/-!
# A live connection

`Session.java`: a connection apart from the screen that shows it. It is the backend's listener, remembers what a new screen
needs, and holds the prompts that no screen has shown (`Prompt.java`).

All of it runs on the main thread, so a run is a list of `Act`s: the backend's callbacks, screens that come and go, answers and
withdrawals of prompts, and what ends the session. Prompts, screens and bitmaps are of any types, and `ask` is of a new prompt
each time.
-/

namespace Vento.App

open Vento.Lib

/-- `Backend.State`. -/
inductive BackendState
  | idle
  | connecting
  | connected
  | closed
deriving DecidableEq

/-- The status message, and whether the connection has ended or is in progress. -/
structure Status where
  text : Text
  ended : Bool
  working : Bool
deriving DecidableEq

/-- A detail describes its state, so it cannot override it. -/
def Status.of (state : BackendState) (detail : Option Text) : Status :=
  let has := fun (otherwise : Text) => match detail with
    | some d => if d = [] then otherwise else d
    | none => otherwise
  match state with
  | .idle | .connecting => ⟨has (lit "Connecting…"), false, true⟩
  | .connected => ⟨[], false, false⟩
  | .closed => ⟨has (lit "Disconnected"), true, false⟩

theorem Status.text_of_closed {d : Text} (h : d ≠ []) : (Status.of .closed (some d)).text = d := if_neg h

/-- A text that is there and not empty. -/
def orNull (text : Option Text) : Option Text := if text = some [] then none else text

/-! ## Screens -/

/-- What a screen was told: its `SessionView` and the panel of its activity. -/
structure Screen (V B : Type) where
  view : V
  mirror : Option (Int × Int) := none
  cursorShape : Option B := none
  cursorHot : Int × Int := (0, 0)
  relative : Bool := false
  backendState : BackendState := .idle
  detail : Option Text := none
  statusLineText : Option Text := none

namespace Screen

variable {V B : Type} (v : Screen V B)

def status : Status := Status.of v.backendState v.detail

def state (s : BackendState) (d : Option Text) : Screen V B :=
  let now := Status.of s d
  { v with
    backendState := s
    detail := d
    statusLineText := if now.ended || !now.working then none else v.statusLineText }

def desktopSize (size : Int × Int) : Screen V B := { v with mirror := some size }

def cursor (shape : Option B) (hot : Int × Int) : Screen V B := { v with cursorShape := shape, cursorHot := hot }

def pointerMode (relative : Bool) : Screen V B := { v with relative }

def statusLine (text : Option Text) : Screen V B := { v with statusLineText := orNull text }

end Screen

/-! ## Prompts -/

/-- Who a withdrawn prompt is closed by: the queue it waits in, or the dialog on a screen. -/
inductive Holder (V : Type)
  | queue
  | dialog (v : V)
deriving DecidableEq

structure Prompt (V : Type) where
  answered : Bool := false
  withdrawn : Bool := false
  onWithdrawn : Option (Holder V) := none
deriving DecidableEq

/-- What is called outside the session, in order. -/
inductive Call (P V : Type)
  /-- A screen's handler is given the prompt, which it shows. -/
  | present (v : V) (p : P)
  /-- The backend is given the answer, or `false`. -/
  | deliver (p : P) (ok : Bool)
  /-- The dialog of a withdrawn prompt. -/
  | dismiss (v : V) (p : P)
  | disconnect
  | destroy
deriving DecidableEq

/-! ## The session -/

structure Session (P V B : Type) where
  key : Text
  notification : Nat
  lastOnScreenAt : Int
  onScreen : Bool := false
  /-- `view` and `ui`, which are set together; no screen is `NOBODY`. -/
  screen : Option (Screen V B) := none
  pending : List P := []
  state : BackendState := .idle
  detail : Option Text := none
  /-- The backend's status line while connecting. -/
  statusLine : Option Text := none
  desktop : Int × Int := (0, 0)
  cursor : Option B := none
  cursorHot : Int × Int := (0, 0)
  /-- The user asked to disconnect. -/
  leaving : Bool := false
  closed : Bool := false

namespace Session

variable {P V B : Type} (s : Session P V B)

/-- What every surface shows. -/
def status : Status := Status.of s.state s.detail

def alive : Bool := !s.closed && s.state ≠ .closed

/-- The state is stored and then forwarded. -/
def report (st : BackendState) (d : Option Text) : Session P V B :=
  { s with
    state := st
    detail := if st = .connected then none else d
    statusLine := if st = .connected ∨ st = .closed then none else s.statusLine
    screen := s.screen.map (·.state st d) }

/-- The backend's report, which is ignored once the session is closed. -/
def onState (st : BackendState) (d : Option Text) : Session P V B := if s.closed then s else s.report st d

def onStatus (text : Option Text) : Session P V B :=
  if s.closed ∨ s.state = .connected ∨ s.state = .closed then s
  else { s with statusLine := orNull text, screen := s.screen.map (·.statusLine (orNull text)) }

def onDesktopSize (size : Int × Int) : Session P V B :=
  { s with desktop := size, screen := s.screen.map (·.desktopSize size) }

def onCursor (shape : Option B) (hot : Int × Int) : Session P V B :=
  { s with cursor := shape, cursorHot := hot, screen := s.screen.map (·.cursor shape hot) }

def onPointerMode (relative : Bool) : Session P V B := { s with screen := s.screen.map (·.pointerMode relative) }

/-- The backend's current state, in place of the one it reported last. An ended session is not asked again. -/
def reread (live : BackendState) : Session P V B :=
  let live := if s.state = .closed then s.state else live
  if live ≠ s.state then { s with state := live, detail := none } else s

/-- What a new screen is told, in order. -/
def newScreen (v : V) (relative : Bool) : Screen V B :=
  let screen : Screen V B := { view := v }
  let screen := if 0 < s.desktop.1 ∧ 0 < s.desktop.2 then screen.desktopSize s.desktop else screen
  let screen := match s.cursor with
    | some shape => screen.cursor (some shape) s.cursorHot
    | none => screen
  let screen := (screen.pointerMode relative).state s.state s.detail
  match s.statusLine with
  | some line => screen.statusLine (some line)
  | none => screen

/-- A new screen is brought up to date, before the prompts; `live` and `relative` are what the backend says now. -/
def catchUp (v : V) (live : BackendState) (relative : Bool) : Session P V B :=
  let s := s.reread live
  { s with screen := some (s.newScreen v relative) }

variable [DecidableEq V]

/-- Nothing, if a newer screen has attached. -/
def detach (v : V) : Session P V B := if (s.screen.map (·.view)) = some v then { s with screen := none } else s

def setOnScreen (visible : Bool) (now : Int) : Session P V B :=
  { s with onScreen := visible, lastOnScreenAt := if visible then s.lastOnScreenAt else now }

def setDetail (d : Text) : Session P V B := { s with detail := some d }

end Session

/-! ## With its prompts -/

/-- A session, the prompts there are, and the calls so far. -/
structure Opened (P V B : Type) where
  session : Session P V B
  prompts : P → Prompt V
  calls : List (Call P V)

namespace Opened

variable {P V B : Type} [DecidableEq P] (o : Opened P V B)

def call (c : Call P V) : Opened P V B := { o with calls := o.calls ++ [c] }

def setPrompt (p : P) (prompt : Prompt V) : Opened P V B := { o with prompts := Function.update o.prompts p prompt }

/-- An answer or a cancel, of which only the first counts. -/
def answer (p : P) (ok : Bool) : Opened P V B :=
  if (o.prompts p).answered then o
  else (o.setPrompt p { o.prompts p with answered := true }).call (.deliver p ok)

def cancel (p : P) : Opened P V B := o.answer p false

/-- The backend takes the question back; whoever holds the prompt closes it. -/
def withdraw (p : P) : Opened P V B :=
  if (o.prompts p).answered then o
  else
    let r := (o.prompts p).onWithdrawn
    let o := o.setPrompt p ⟨true, true, none⟩
    match r with
    | some .queue => { o with session := { o.session with pending := o.session.pending.erase p } }
    | some (.dialog v) => o.call (.dismiss v p)
    | none => o

/-- A handler shows the prompt, and its dialog is what withdrawing closes. -/
def showPrompt (v : V) (p : P) : Opened P V B :=
  (o.setPrompt p { o.prompts p with onWithdrawn := some (.dialog v) }).call (.present v p)

def setPending (pending : List P) : Opened P V B := { o with session := { o.session with pending } }

/-- The loop of `flushPrompts`, on what is pending. -/
def showAll (v : V) : List P → Opened P V B → Opened P V B
  | [], o => o
  | p :: rest, o => showAll v rest ((o.setPending rest).showPrompt v p)

def flushPrompts : Opened P V B :=
  match o.session.screen with
  | some screen => showAll screen.view o.session.pending o
  | none => o

/-- The loop of `close`, on what is pending. -/
def cancelAll : List P → Opened P V B → Opened P V B
  | [], o => o
  | p :: rest, o => cancelAll rest ((o.setPending rest).cancel p)

def enqueue (p : P) : Opened P V B :=
  (o.setPending (o.session.pending ++ [p])).setPrompt p { o.prompts p with onWithdrawn := some .queue }

def queue (p : P) : Opened P V B := (o.enqueue p).flushPrompts

def on (f : Session P V B → Session P V B) : Opened P V B := { o with session := f o.session }

def attach (v : V) (live : BackendState) (relative : Bool) : Opened P V B :=
  (o.on (·.catchUp v live relative)).flushPrompts

/-- The first half of `close`, before the alarm and the registry. -/
def closing : Opened P V B := o.on fun s => { s with closed := true }

/-- The second half, after them. -/
def release : Opened P V B :=
  let o := cancelAll o.session.pending o
  (o.on fun s => s.report .closed s.detail).call .destroy

def close : Opened P V B := if o.session.closed then o else o.closing.release

/-- `backend.disconnect()`, while which the backend may report. -/
def backendDisconnect (during : List (BackendState × Option Text)) : Opened P V B :=
  (o.call .disconnect).on fun s => during.foldl (fun s r => s.onState r.1 r.2) s

def disconnect (during : List (BackendState × Option Text)) : Opened P V B :=
  ((o.on fun s => { s with leaving := true }).backendDisconnect during).close

/-- Whether what would have cancelled the alarm has happened. -/
def timesOut (minutes : Int) : Bool := o.session.alive && !o.session.onScreen && 0 < minutes

def timeoutReason (label : Text) : Text := lit "Closed after " ++ label ++ lit " timeout"

/-- The alarm went off; `label` is the time in words. -/
def timedOut (minutes : Int) (label : Text) (during : List (BackendState × Option Text)) : Opened P V B :=
  if o.timesOut minutes then
    ((o.backendDisconnect during).on (·.setDetail (timeoutReason label))).close
  else o

end Opened

/-! ## Runs -/

inductive Act (P V B : Type)
  | state (st : BackendState) (d : Option Text)
  | status (text : Option Text)
  | desktopSize (size : Int × Int)
  | cursor (shape : Option B) (hot : Int × Int)
  | pointerMode (relative : Bool)
  /-- A prompt of the backend's. -/
  | ask (p : P)
  | answer (p : P) (ok : Bool)
  | withdraw (p : P)
  | attach (v : V) (live : BackendState) (relative : Bool)
  | detach (v : V)
  | onScreen (visible : Bool) (now : Int)
  | timedOut (minutes : Int) (label : Text) (during : List (BackendState × Option Text))
  | disconnect (during : List (BackendState × Option Text))
  | close

namespace Opened

variable {P V B : Type} [DecidableEq P] [DecidableEq V]

def opened (key : Text) (notification : Nat) (now : Int) : Opened P V B :=
  ⟨{ key, notification, lastOnScreenAt := now }, fun _ => {}, []⟩

/-- A prompt that is asked is new, and one that is answered is no longer in the queue. -/
def step (o : Opened P V B) : Act P V B → Option (Opened P V B)
  | .state st d => some (o.on (·.onState st d))
  | .status text => some (o.on (·.onStatus text))
  | .desktopSize size => some (o.on (·.onDesktopSize size))
  | .cursor shape hot => some (o.on (·.onCursor shape hot))
  | .pointerMode relative => some (o.on (·.onPointerMode relative))
  | .ask p => if o.prompts p = {} then some (o.queue p) else none
  | .answer p ok => if o.prompts p ≠ {} ∧ p ∉ o.session.pending then some (o.answer p ok) else none
  | .withdraw p => if o.prompts p ≠ {} then some (o.withdraw p) else none
  | .attach v live relative => some (o.attach v live relative)
  | .detach v => some (o.on (·.detach v))
  | .onScreen visible now => some (o.on (·.setOnScreen visible now))
  | .timedOut minutes label during => some (o.timedOut minutes label during)
  | .disconnect during => some (o.disconnect during)
  | .close => some o.close

end Opened

/-! ## What a call leaves -/

namespace Opened

variable {P V B : Type} (o : Opened P V B)

@[simp]
theorem on_session (f : Session P V B → Session P V B) : (o.on f).session = f o.session := rfl

@[simp]
theorem call_session (c : Call P V) : (o.call c).session = o.session := rfl

theorem onStates_closed (s : Session P V B) (rs : List (BackendState × Option Text)) :
    (rs.foldl (fun s r => s.onState r.1 r.2) s).closed = s.closed := by
  induction rs generalizing s with
  | nil => rfl
  | cons r rs ih =>
    rw [List.foldl_cons, ih, Session.onState]
    split
    · rfl
    · rfl

theorem backendDisconnect_closed (during : List (BackendState × Option Text)) :
    (o.backendDisconnect during).session.closed = o.session.closed :=
  onStates_closed o.session during

variable {o} in
theorem closed_of_timesOut {minutes : Int} (h : o.timesOut minutes = true) : o.session.closed = false := by
  simp only [timesOut, Session.alive, Bool.and_eq_true, Bool.not_eq_true'] at h
  exact h.1.1.1

/-- The prompts change nothing of a session but what is pending. -/
def SameBut (s s' : Session P V B) : Prop := ∃ pending, s' = { s with pending }

theorem SameBut.refl (s : Session P V B) : SameBut s s := ⟨s.pending, rfl⟩

theorem SameBut.closed {s s' : Session P V B} : SameBut s s' → s'.closed = s.closed := by
  rintro ⟨pending, rfl⟩
  rfl

theorem SameBut.trans {s s' s'' : Session P V B} : SameBut s s' → SameBut s' s'' → SameBut s s'' := by
  rintro ⟨pending, rfl⟩ ⟨pending', rfl⟩
  exact ⟨pending', rfl⟩

variable [DecidableEq P]

variable {o} in
theorem close_of_open (h : o.session.closed = false) : o.close = o.closing.release := by
  rw [close, if_neg (Bool.eq_false_iff.1 h)]

omit [DecidableEq P] in
theorem timeoutReason_ne_nil (label : Text) : timeoutReason label ≠ [] := by
  have h : lit "Closed after " ≠ [] := by decide +kernel
  exact List.append_ne_nil_of_left_ne_nil (List.append_ne_nil_of_left_ne_nil h label) (lit " timeout")

variable {o} in
theorem timedOut_eq {minutes : Int} (h : o.timesOut minutes = true) (label : Text) (during : List (BackendState × Option Text)) :
    o.timedOut minutes label during =
      ((o.backendDisconnect during).on (·.setDetail (timeoutReason label))).closing.release := by
  rw [timedOut, if_pos h]
  refine close_of_open ?_
  exact (backendDisconnect_closed o during).trans (closed_of_timesOut h)

@[simp]
theorem answer_session (p : P) (ok : Bool) : (o.answer p ok).session = o.session := by
  rw [answer]
  split
  · rfl
  · rfl

theorem showAll_session (v : V) (ps : List P) : SameBut o.session (showAll v ps o).session := by
  induction ps generalizing o with
  | nil => exact .refl _
  | cons p ps ih => exact .trans ⟨ps, rfl⟩ (ih ((o.setPending ps).showPrompt v p))

theorem cancelAll_session (ps : List P) : SameBut o.session (cancelAll ps o).session := by
  induction ps generalizing o with
  | nil => exact .refl _
  | cons p ps ih =>
    refine .trans ⟨ps, ?_⟩ (ih ((o.setPending ps).cancel p))
    rw [cancel, answer_session]
    rfl

theorem flushPrompts_session : SameBut o.session o.flushPrompts.session := by
  rw [flushPrompts]
  split
  · exact showAll_session o _ _
  · exact .refl _

variable {o} in
theorem flushPrompts_of_none (h : o.session.screen = none) : o.flushPrompts = o := by rw [flushPrompts, h]

theorem queue_session (p : P) : SameBut o.session (o.queue p).session :=
  .trans ⟨o.session.pending ++ [p], rfl⟩ (flushPrompts_session _)

theorem withdraw_session (p : P) : SameBut o.session (o.withdraw p).session := by
  rw [withdraw]
  split
  · exact .refl _
  · cases (o.prompts p).onWithdrawn with
    | none => exact .refl _
    | some holder =>
      cases holder with
      | queue => exact ⟨o.session.pending.erase p, rfl⟩
      | dialog v => exact .refl _

end Opened

/-! ## What a screen shows -/

section Shows

variable {P V B : Type}

/-- The size that the backend reported last. -/
def lastDesktop (as : List (Act P V B)) : Int × Int :=
  as.foldl (fun size a => match a with | .desktopSize size => size | _ => size) (0, 0)

/-- The cursor that the backend reported last. -/
def lastCursor (as : List (Act P V B)) : Option B × (Int × Int) :=
  as.foldl (fun cursor a => match a with | .cursor shape hot => (shape, hot) | _ => cursor) (none, (0, 0))

/-- A screen shows what the session has stored, but perhaps its state. -/
structure Shows (v : Screen V B) (s : Session P V B) : Prop where
  statusLine : v.statusLineText = s.statusLine
  mirror : 0 < s.desktop.1 → 0 < s.desktop.2 → v.mirror = some s.desktop
  shape : v.cursorShape = s.cursor
  hot : s.cursor ≠ none → v.cursorHot = s.cursorHot

/-- The session has stored what was reported last, and so has the screen. -/
structure Remembered (as : List (Act P V B)) (s : Session P V B) : Prop where
  desktop : s.desktop = lastDesktop as
  cursor : (s.cursor, s.cursorHot) = lastCursor as
  line : orNull s.statusLine = s.statusLine
  shows : ∀ v, s.screen = some v → Shows v s

structure InStep (as : List (Act P V B)) (s : Session P V B) : Prop extends Remembered as s where
  status : ∀ v, s.screen = some v → v.status = s.status

theorem orNull_orNull (text : Option Text) : orNull (orNull text) = orNull text := by
  unfold orNull
  split
  · rw [if_neg (by simp)]
  · rfl

/-- A screen drops its status line where the session does. -/
theorem Screen.statusLineText_state (v : Screen V B) (st : BackendState) (d : Option Text) :
    (v.state st d).statusLineText = if st = .connected ∨ st = .closed then none else v.statusLineText := by
  cases st <;> rfl

theorem Session.reread_eq (s : Session P V B) (live : BackendState) :
    ∃ st d, s.reread live = { s with state := st, detail := d } := by
  unfold Session.reread
  dsimp only
  generalize (if s.state = .closed then s.state else live) = live
  split
  · exact ⟨live, none, rfl⟩
  · exact ⟨s.state, s.detail, rfl⟩

section NewScreen

variable (s : Session P V B) (v : V) (relative : Bool)

theorem Session.newScreen_mirror (h : 0 < s.desktop.1) (h' : 0 < s.desktop.2) :
    (s.newScreen v relative).mirror = some s.desktop := by
  rw [Session.newScreen, if_pos ⟨h, h'⟩]
  cases s.statusLine <;> cases s.cursor <;> rfl

theorem Session.newScreen_cursorShape : (s.newScreen v relative).cursorShape = s.cursor := by
  unfold Session.newScreen
  cases s.statusLine <;> cases s.cursor <;> dsimp only <;> split <;> rfl

theorem Session.newScreen_cursorHot (h : s.cursor ≠ none) : (s.newScreen v relative).cursorHot = s.cursorHot := by
  obtain ⟨shape, hshape⟩ := Option.ne_none_iff_exists'.1 h
  unfold Session.newScreen
  cases s.statusLine <;> rw [hshape] <;> rfl

theorem Session.newScreen_status : (s.newScreen v relative).status = s.status := by
  unfold Session.newScreen
  cases s.statusLine <;> rfl

/-- A status line is told after the state, which would drop it. -/
theorem Session.newScreen_statusLine (h : orNull s.statusLine = s.statusLine) :
    (s.newScreen v relative).statusLineText = s.statusLine := by
  unfold Session.newScreen
  cases hline : s.statusLine with
  | none =>
    dsimp only
    rw [Screen.statusLineText_state]
    cases s.cursor <;> dsimp only <;> split_ifs <;> rfl
  | some line =>
    rw [hline] at h
    exact h

end NewScreen

namespace Remembered

variable {as : List (Act P V B)} {s : Session P V B}

theorem append {a : Act P V B} (h : Remembered as s) (hd : lastDesktop (as ++ [a]) = lastDesktop as)
    (hc : lastCursor (as ++ [a]) = lastCursor as) : Remembered (as ++ [a]) s :=
  ⟨h.desktop.trans hd.symm, h.cursor.trans hc.symm, h.line, h.shows⟩

/-- Nothing else of the session matters. -/
theorem same {s' : Session P V B} (h : Remembered as s)
    (hs : (s'.desktop, s'.cursor, s'.cursorHot, s'.statusLine, s'.screen) = (s.desktop, s.cursor, s.cursorHot, s.statusLine, s.screen)) :
    Remembered as s' := by
  simp only [Prod.mk.injEq] at hs
  obtain ⟨hd, hc, hh, hl, hv⟩ := hs
  refine ⟨hd.trans h.desktop, ?_, ?_, ?_⟩
  · rw [hc, hh]
    exact h.cursor
  · rw [hl]
    exact h.line
  · intro v hw
    obtain ⟨hline, hm, hshape, hhot⟩ := h.shows v (hv ▸ hw)
    refine ⟨hline.trans hl.symm, ?_, hshape.trans hc.symm, ?_⟩
    · rwa [hd]
    · rwa [hc, hh]

/-- A report brings what was not in step back. -/
theorem report (h : Remembered as s) (st : BackendState) (d : Option Text) : InStep as (s.report st d) := by
  have hline : ∀ line : Option Text, orNull line = line →
      orNull (if st = .connected ∨ st = .closed then none else line) = if st = .connected ∨ st = .closed then none else line := by
    intro line hl
    split
    · rfl
    · exact hl
  refine ⟨⟨h.desktop, h.cursor, hline _ h.line, ?_⟩, ?_⟩
  · intro v hv
    obtain ⟨u, hu, rfl⟩ := Option.map_eq_some_iff.1 hv
    have hs := h.shows u hu
    refine ⟨?_, hs.mirror, hs.shape, hs.hot⟩
    rw [Screen.statusLineText_state, hs.statusLine]
    rfl
  · intro v hv
    obtain ⟨u, -, rfl⟩ := Option.map_eq_some_iff.1 hv
    cases st <;> rfl

end Remembered

namespace InStep

variable {as : List (Act P V B)} {s : Session P V B}

theorem append {a : Act P V B} (h : InStep as s) (hd : lastDesktop (as ++ [a]) = lastDesktop as)
    (hc : lastCursor (as ++ [a]) = lastCursor as) : InStep (as ++ [a]) s :=
  ⟨h.toRemembered.append hd hc, h.status⟩

theorem sameBut {s' : Session P V B} (h : InStep as s) (hs : Opened.SameBut s s') : InStep as s' := by
  obtain ⟨pending, rfl⟩ := hs
  exact ⟨h.toRemembered.same rfl, h.status⟩

theorem catchUp (h : Remembered as s) (v : V) (live : BackendState) (relative : Bool) : InStep as (s.catchUp v live relative) := by
  rw [Session.catchUp]
  obtain ⟨st, d, heq⟩ := s.reread_eq live
  rw [heq]
  dsimp only
  refine ⟨⟨h.desktop, h.cursor, h.line, fun w hw => ?_⟩, fun w hw => ?_⟩
  · cases hw
    exact ⟨Session.newScreen_statusLine _ v relative h.line, Session.newScreen_mirror _ v relative,
      Session.newScreen_cursorShape _ v relative, Session.newScreen_cursorHot _ v relative⟩
  · cases hw
    exact Session.newScreen_status _ v relative

theorem onState (h : InStep as s) (st : BackendState) (d : Option Text) : InStep as (s.onState st d) := by
  rw [Session.onState]
  split
  · exact h
  · exact h.toRemembered.report st d

theorem onStates (h : InStep as s) (rs : List (BackendState × Option Text)) :
    InStep as (rs.foldl (fun s r => s.onState r.1 r.2) s) := by
  induction rs generalizing s with
  | nil => exact h
  | cons r rs ih => exact ih (h.onState r.1 r.2)

theorem onStatus (h : InStep as s) (text : Option Text) : InStep as (s.onStatus text) := by
  rw [Session.onStatus]
  split
  · exact h
  · refine ⟨⟨h.desktop, h.cursor, orNull_orNull text, ?_⟩, ?_⟩
    · intro v hv
      obtain ⟨u, hu, rfl⟩ := Option.map_eq_some_iff.1 hv
      have hs := h.shows u hu
      exact ⟨orNull_orNull text, hs.mirror, hs.shape, hs.hot⟩
    · intro v hv
      obtain ⟨u, hu, rfl⟩ := Option.map_eq_some_iff.1 hv
      exact h.status u hu

theorem onDesktopSize (h : InStep as s) (size : Int × Int) : InStep (as ++ [.desktopSize size]) (s.onDesktopSize size) := by
  refine ⟨⟨?_, ?_, h.line, ?_⟩, ?_⟩
  · simp [lastDesktop, Session.onDesktopSize]
  · simpa [lastCursor, Session.onDesktopSize] using h.cursor
  · intro v hv
    obtain ⟨u, hu, rfl⟩ := Option.map_eq_some_iff.1 hv
    have hs := h.shows u hu
    exact ⟨hs.statusLine, fun _ _ => rfl, hs.shape, hs.hot⟩
  · intro v hv
    obtain ⟨u, hu, rfl⟩ := Option.map_eq_some_iff.1 hv
    exact h.status u hu

theorem onCursor (h : InStep as s) (shape : Option B) (hot : Int × Int) :
    InStep (as ++ [.cursor shape hot]) (s.onCursor shape hot) := by
  refine ⟨⟨?_, ?_, h.line, ?_⟩, ?_⟩
  · simpa [lastDesktop, Session.onCursor] using h.desktop
  · simp [lastCursor, Session.onCursor]
  · intro v hv
    obtain ⟨u, hu, rfl⟩ := Option.map_eq_some_iff.1 hv
    have hs := h.shows u hu
    exact ⟨hs.statusLine, hs.mirror, rfl, fun _ => rfl⟩
  · intro v hv
    obtain ⟨u, hu, rfl⟩ := Option.map_eq_some_iff.1 hv
    exact h.status u hu

theorem onPointerMode (h : InStep as s) (relative : Bool) : InStep as (s.onPointerMode relative) := by
  refine ⟨⟨h.desktop, h.cursor, h.line, ?_⟩, ?_⟩
  · intro v hv
    obtain ⟨u, hu, rfl⟩ := Option.map_eq_some_iff.1 hv
    have hs := h.shows u hu
    exact ⟨hs.statusLine, hs.mirror, hs.shape, hs.hot⟩
  · intro v hv
    obtain ⟨u, hu, rfl⟩ := Option.map_eq_some_iff.1 hv
    exact h.status u hu

theorem detach [DecidableEq V] (h : InStep as s) (v : V) : InStep as (s.detach v) := by
  rw [Session.detach]
  split
  · exact ⟨⟨h.desktop, h.cursor, h.line, fun v hv => by cases hv⟩, fun v hv => by cases hv⟩
  · exact h

theorem setOnScreen (h : InStep as s) (visible : Bool) (now : Int) : InStep as (s.setOnScreen visible now) :=
  ⟨h.toRemembered.same rfl, h.status⟩

theorem release [DecidableEq P] {o : Opened P V B} (h : Remembered as o.session) : InStep as o.release.session := by
  rw [Opened.release, Opened.call_session, Opened.on_session]
  obtain ⟨pending, heq⟩ := Opened.cancelAll_session o o.session.pending
  rw [heq]
  have hp : Remembered as { o.session with pending } := h.same rfl
  exact hp.report .closed _

theorem close [DecidableEq P] {o : Opened P V B} (h : InStep as o.session) : InStep as o.close.session := by
  rw [Opened.close]
  split
  · exact h
  · exact release (h.toRemembered.same rfl)

theorem disconnect [DecidableEq P] {o : Opened P V B} (h : InStep as o.session) (during : List (BackendState × Option Text)) :
    InStep as (o.disconnect during).session := by
  refine close (onStates ?_ during)
  exact ⟨h.toRemembered.same rfl, h.status⟩

theorem timedOut [DecidableEq P] {o : Opened P V B} (h : InStep as o.session) (minutes : Int) (label : Text)
    (during : List (BackendState × Option Text)) : InStep as (o.timedOut minutes label during).session := by
  by_cases htimes : o.timesOut minutes = true
  · have hd : InStep as (o.backendDisconnect during).session := h.onStates during
    -- The reason is not what the screen shows until the session has closed.
    rw [Opened.timedOut_eq htimes]
    exact release (hd.toRemembered.same rfl)
  · rwa [Opened.timedOut, if_neg htimes]

end InStep

theorem inStep_step [DecidableEq P] [DecidableEq V] {as : List (Act P V B)} {o o' : Opened P V B} {a : Act P V B}
    (h : InStep as o.session) (ha : o.step a = some o') : InStep (as ++ [a]) o'.session := by
  cases a with
  | desktopSize size =>
    cases ha
    exact h.onDesktopSize size
  | cursor shape hot =>
    cases ha
    exact h.onCursor shape hot
  | state st d =>
    cases ha
    exact (h.onState st d).append (by simp [lastDesktop]) (by simp [lastCursor])
  | status text =>
    cases ha
    exact (h.onStatus text).append (by simp [lastDesktop]) (by simp [lastCursor])
  | pointerMode relative =>
    cases ha
    exact (h.onPointerMode relative).append (by simp [lastDesktop]) (by simp [lastCursor])
  | ask p =>
    obtain ⟨-, ha⟩ := Option.ite_none_right_eq_some.1 ha
    cases ha
    exact (h.sameBut (o.queue_session p)).append (by simp [lastDesktop]) (by simp [lastCursor])
  | answer p ok =>
    obtain ⟨-, ha⟩ := Option.ite_none_right_eq_some.1 ha
    cases ha
    rw [Opened.answer_session]
    exact h.append (by simp [lastDesktop]) (by simp [lastCursor])
  | withdraw p =>
    obtain ⟨-, ha⟩ := Option.ite_none_right_eq_some.1 ha
    cases ha
    exact (h.sameBut (o.withdraw_session p)).append (by simp [lastDesktop]) (by simp [lastCursor])
  | attach v live relative =>
    cases ha
    have hc := InStep.catchUp h.toRemembered v live relative
    exact (hc.sameBut (Opened.flushPrompts_session _)).append (by simp [lastDesktop]) (by simp [lastCursor])
  | detach v =>
    cases ha
    exact (h.detach v).append (by simp [lastDesktop]) (by simp [lastCursor])
  | onScreen visible now =>
    cases ha
    exact (h.setOnScreen visible now).append (by simp [lastDesktop]) (by simp [lastCursor])
  | timedOut minutes label during =>
    cases ha
    exact (h.timedOut minutes label during).append (by simp [lastDesktop]) (by simp [lastCursor])
  | disconnect during =>
    cases ha
    exact (h.disconnect during).append (by simp [lastDesktop]) (by simp [lastCursor])
  | close =>
    cases ha
    exact h.close.append (by simp [lastDesktop]) (by simp [lastCursor])

/-- Whenever a screen came and whatever it missed, it shows the session's status, its status line, and the size and the
cursor that the backend reported last. -/
theorem screen_in_step [DecidableEq P] [DecidableEq V] {key : Text} {n : Nat} {now : Int} {as : List (Act P V B)}
    {o : Opened P V B} (hr : run Opened.step (Opened.opened key n now) as = some o) {v : Screen V B}
    (hv : o.session.screen = some v) :
    v.status = o.session.status ∧ v.statusLineText = o.session.statusLine ∧
      (0 < (lastDesktop as).1 → 0 < (lastDesktop as).2 → v.mirror = some (lastDesktop as)) ∧
      v.cursorShape = (lastCursor as).1 ∧ ((lastCursor as).1 ≠ none → v.cursorHot = (lastCursor as).2) := by
  have h : InStep as o.session := by
    refine trace_inv_all (fun as o => InStep as o.session) ?_ ?_ hr
    · exact ⟨⟨rfl, rfl, rfl, fun v hv => by cases hv⟩, fun v hv => by cases hv⟩
    · intro tr o a o' hI ha
      exact inStep_step hI ha
  have hs := h.shows v hv
  have hc := h.cursor
  refine ⟨h.status v hv, hs.statusLine, ?_, ?_, ?_⟩
  · rw [← h.desktop]
    exact hs.mirror
  · rw [← hc]
    exact hs.shape
  · rw [← hc]
    exact hs.hot

/-- A screen that comes to a desktop that is up. -/
theorem screen_in_step_late : ∃ (o : Opened Nat Nat Nat) (v : Screen Nat Nat),
    run Opened.step (Opened.opened (lit "id:1") 1 0)
      [.desktopSize (1920, 1080), .cursor (some 4) (1, 2), .state .connected none, .attach 7 .connected false] = some o ∧
      o.session.screen = some v ∧ v.status = o.session.status ∧ v.mirror = some (1920, 1080) ∧ v.cursorShape = some 4 := by
  have hr : ∃ o : Opened Nat Nat Nat, run Opened.step (Opened.opened (lit "id:1") 1 0)
      [.desktopSize (1920, 1080), .cursor (some 4) (1, 2), .state .connected none, .attach 7 .connected false] = some o ∧
      ∃ v, o.session.screen = some v := ⟨_, rfl, _, rfl⟩
  obtain ⟨o, hr, v, hv⟩ := hr
  obtain ⟨hstatus, -, hmirror, hshape, -⟩ := screen_in_step hr hv
  exact ⟨o, v, hr, hv, hstatus, hmirror (by decide) (by decide), hshape⟩

end Shows

/-! ## How it ended -/

section Ended

variable {P V B : Type} [DecidableEq P] [DecidableEq V]

/-- It has closed, with this detail. -/
structure Over (d : Option Text) (s : Session P V B) : Prop where
  closed : s.closed = true
  state : s.state = .closed
  detail : s.detail = d

namespace Over

variable {d : Option Text} {s : Session P V B}

omit [DecidableEq P] [DecidableEq V] in
theorem sameBut {s' : Session P V B} (h : Over d s) (hs : Opened.SameBut s s') : Over d s' := by
  obtain ⟨pending, rfl⟩ := hs
  exact ⟨h.closed, h.state, h.detail⟩

omit [DecidableEq P] [DecidableEq V] in
theorem onStates (h : Over d s) (rs : List (BackendState × Option Text)) :
    Over d (rs.foldl (fun s r => s.onState r.1 r.2) s) := by
  induction rs generalizing s with
  | nil => exact h
  | cons r rs ih =>
    have hr : s.onState r.1 r.2 = s := if_pos h.closed
    rw [List.foldl_cons, hr]
    exact ih h

omit [DecidableEq V] in
theorem release {o : Opened P V B} (h : o.session.closed = true) : Over o.session.detail o.release.session := by
  rw [Opened.release, Opened.call_session, Opened.on_session]
  obtain ⟨pending, heq⟩ := Opened.cancelAll_session o o.session.pending
  rw [heq]
  exact ⟨h, rfl, rfl⟩

theorem step {o o' : Opened P V B} {a : Act P V B} (h : Over d o.session) (ha : o.step a = some o') : Over d o'.session := by
  have hclose : ∀ o : Opened P V B, Over d o.session → Over d o.close.session := by
    intro o h
    rw [Opened.close, if_pos h.closed]
    exact h
  cases a with
  | state st d' =>
    cases ha
    exact h.onStates [(st, d')]
  | status text =>
    cases ha
    rw [Opened.on_session, Session.onStatus, if_pos (.inl h.closed)]
    exact h
  | ask p =>
    obtain ⟨-, ha⟩ := Option.ite_none_right_eq_some.1 ha
    cases ha
    exact h.sameBut (o.queue_session p)
  | answer p ok =>
    obtain ⟨-, ha⟩ := Option.ite_none_right_eq_some.1 ha
    cases ha
    rw [Opened.answer_session]
    exact h
  | withdraw p =>
    obtain ⟨-, ha⟩ := Option.ite_none_right_eq_some.1 ha
    cases ha
    exact h.sameBut (o.withdraw_session p)
  | attach v live relative =>
    cases ha
    refine Over.sameBut ?_ (Opened.flushPrompts_session _)
    -- An ended session is not read again.
    rw [Opened.on_session, Session.catchUp, Session.reread, if_pos h.state, if_neg (by simp)]
    exact ⟨h.closed, h.state, h.detail⟩
  | detach v =>
    cases ha
    rw [Opened.on_session, Session.detach]
    split
    · exact ⟨h.closed, h.state, h.detail⟩
    · exact h
  | timedOut minutes label during =>
    cases ha
    rw [Opened.timedOut, if_neg]
    · exact h
    · intro htimes
      exact Bool.false_ne_true ((Opened.closed_of_timesOut htimes).symm.trans h.closed)
  | disconnect during =>
    cases ha
    refine hclose _ (onStates ?_ during)
    exact ⟨h.closed, h.state, h.detail⟩
  | close =>
    cases ha
    exact hclose o h
  | _ =>
    cases ha
    exact ⟨h.closed, h.state, h.detail⟩

theorem run {o t : Opened P V B} {as : List (Act P V B)} (h : Over d o.session) (hr : run Opened.step o as = some t) :
    Over d t.session :=
  trace_inv_all (fun _ o => Over d o.session) h (fun _ _ _ _ h ha => h.step ha) hr

end Over

/-- An act that closes the session reports so, and a timeout with its reason. -/
theorem Over.of_step {o o' : Opened P V B} {a : Act P V B} (ho : o.session.closed = false) (ha : o.step a = some o')
    (hc : o'.session.closed = true) :
    Over o'.session.detail o'.session ∧
      ∀ minutes label during, a = .timedOut minutes label during → o'.session.detail = some (Opened.timeoutReason label) := by
  have hsame : o'.session.closed = o.session.closed → False := by
    intro h
    exact Bool.false_ne_true (ho.symm.trans (h.symm.trans hc))
  have hover : ∀ o'' : Opened P V B, o''.session.closed = true → o' = o''.release → Over o'.session.detail o'.session := by
    rintro o'' hs rfl
    have h := Over.release hs
    exact ⟨h.closed, h.state, rfl⟩
  cases a with
  | ask p =>
    obtain ⟨-, ha⟩ := Option.ite_none_right_eq_some.1 ha
    cases ha
    exact (hsame (o.queue_session p).closed).elim
  | answer p ok =>
    obtain ⟨-, ha⟩ := Option.ite_none_right_eq_some.1 ha
    cases ha
    exact (hsame (congrArg Session.closed (o.answer_session p ok))).elim
  | withdraw p =>
    obtain ⟨-, ha⟩ := Option.ite_none_right_eq_some.1 ha
    cases ha
    exact (hsame (o.withdraw_session p).closed).elim
  | attach v live relative =>
    cases ha
    obtain ⟨st, d, heq⟩ := o.session.reread_eq live
    refine (hsame ((Opened.flushPrompts_session _).closed.trans ?_)).elim
    rw [Opened.on_session, Session.catchUp, heq]
  | state st d =>
    cases ha
    exact (hsame (Opened.onStates_closed o.session [(st, d)])).elim
  | status text =>
    cases ha
    refine (hsame ?_).elim
    rw [Opened.on_session, Session.onStatus]
    split <;> rfl
  | detach v =>
    cases ha
    refine (hsame ?_).elim
    rw [Opened.on_session, Session.detach]
    split <;> rfl
  | timedOut minutes label during =>
    cases ha
    by_cases htimes : o.timesOut minutes = true
    · refine ⟨hover _ rfl (Opened.timedOut_eq htimes label during), ?_⟩
      intro minutes' label' during' heq
      cases heq
      rw [Opened.timedOut_eq htimes]
      exact (Over.release rfl).detail
    · refine (hsame ?_).elim
      rw [Opened.timedOut, if_neg htimes]
  | disconnect during =>
    cases ha
    refine ⟨hover _ rfl (Opened.close_of_open ?_), fun _ _ _ heq => by cases heq⟩
    exact (Opened.backendDisconnect_closed (o.on fun s => { s with leaving := true }) during).trans ho
  | close =>
    cases ha
    exact ⟨hover o.closing rfl (Opened.close_of_open ho), fun _ _ _ heq => by cases heq⟩
  | _ =>
    cases ha
    exact (hsame rfl).elim

omit [DecidableEq P] [DecidableEq V] in
theorem Over.ended {d : Option Text} {s : Session P V B} (h : Over d s) : s.status = Status.of .closed d := by
  rw [Session.status, h.state, h.detail]

/-- However a session was closed, its status then is its last, whatever the backend still reports and on whichever screen;
after a timeout it is the timeout's. -/
theorem closed_for_good {key : Text} {n : Nat} {now : Int} {as bs : List (Act P V B)} {a : Act P V B} {o o' t : Opened P V B}
    (hr : run Opened.step (Opened.opened key n now) as = some o) (ho : o.session.closed = false) (ha : o.step a = some o')
    (hc : o'.session.closed = true) (ht : run Opened.step o' bs = some t) :
    t.session.closed = true ∧ t.session.status = o'.session.status ∧ t.session.status.ended = true ∧
      (∀ v, t.session.screen = some v → v.status = o'.session.status) ∧
      ∀ minutes label during, a = .timedOut minutes label during →
        t.session.status.text = Opened.timeoutReason label := by
  obtain ⟨hover, hreason⟩ := Over.of_step ho ha hc
  have hlast := hover.run ht
  have heq : t.session.status = o'.session.status := hlast.ended.trans hover.ended.symm
  refine ⟨hlast.closed, heq, ?_, ?_, ?_⟩
  · rw [hlast.ended]
    rfl
  · intro v hv
    have hwhole : run Opened.step (Opened.opened key n now) (as ++ a :: bs) = some t := by
      rw [run_append, hr, Option.bind_some, run_cons, ha]
      exact ht
    exact (screen_in_step hwhole hv).1.trans heq
  · intro minutes label during h
    rw [hlast.ended, hreason minutes label during h]
    exact Status.text_of_closed (Opened.timeoutReason_ne_nil label)

/-- The backend's own report comes after the timeout's. -/
theorem closed_for_good_timeout : ∃ o' t : Opened Nat Nat Nat,
    (Opened.opened (lit "id:1") 1 0).step (.timedOut 5 (lit "5 minutes") [(.closed, none)]) = some o' ∧
      run Opened.step o' [.state .closed (some (lit "gone")), .attach 7 .closed false] = some t ∧
      t.session.status.text = Opened.timeoutReason (lit "5 minutes") := by
  have hr : run Opened.step (Opened.opened (lit "id:1") 1 0) [] = some (Opened.opened (lit "id:1") 1 0 : Opened Nat Nat Nat) := rfl
  have ht : ∃ o' t : Opened Nat Nat Nat,
      (Opened.opened (lit "id:1") 1 0).step (.timedOut 5 (lit "5 minutes") [(.closed, none)]) = some o' ∧
        o'.session.closed = true ∧
        run Opened.step o' [.state .closed (some (lit "gone")), .attach 7 .closed false] = some t := ⟨_, _, rfl, rfl, rfl⟩
  obtain ⟨o', t, ha, hc, ht⟩ := ht
  exact ⟨o', t, ha, ht, (closed_for_good hr rfl ha hc ht).2.2.2.2 5 _ _ rfl⟩

end Ended

end Vento.App
