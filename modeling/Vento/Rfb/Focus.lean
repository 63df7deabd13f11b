import Vento.Lib.Runs
/-!
# Update requests and focus

An RFB server sends nothing unrequested, so the client pauses by not asking:
the reader asks again after each update while the session is focused, and
`set_focused(true)` asks if nothing is outstanding (`rfb/src/client.rs`).

The `focused` flag is an atomic and `requested` is under a mutex of its own, so
the two threads interleave between them: `set_focused` stores the flag and then
calls `request_update`; the reader, after an update, clears `requested`, then
loads the flag, then calls `request_update`. Each call of `request_update` is
one step, since it holds the mutex from its test to the queueing.
-/

namespace Vento.Rfb

open Vento.Lib

/-- A `FramebufferUpdateRequest`: of the changed areas, or of the whole desktop. -/
inductive UpdateRequest where
  | changed
  | whole
deriving DecidableEq, Repr

/-- Where the protocol thread is. -/
inductive ReaderAt where
  /-- Connecting: the session is not running yet. -/
  | connecting
  /-- Running, before the first request. -/
  | started
  /-- In the read of the next message. -/
  | blocked
  /-- In `framebuffer_update`. -/
  | updating
  /-- After an update, `requested` cleared and the focus not yet looked at. -/
  | cleared
  /-- Saw the focus and is about to call `request_update`. -/
  | requesting
  | ended
deriving DecidableEq, Repr

/-- Where the UI thread is. -/
inductive UiAt where
  | idle
  /-- In `set_focused(true)`, with the flag stored. -/
  | focusing
  /-- In `set_encodings`, with the encodings queued. -/
  | encoding
deriving DecidableEq, Repr

/-- `queued` is what was queued since the last completed update, or since the
session started. -/
structure Updates where
  requested : Bool
  running : Bool
  focused : Bool
  queued : List UpdateRequest
  reader : ReaderAt
  ui : UiAt
deriving DecidableEq, Repr

inductive UpdateStep where
  /-- `running` is stored. -/
  | start
  /-- The request of a new session. -/
  | requestFirst
  /-- A message other than an update. -/
  | otherMessage
  | beginUpdate
  /-- A rectangle that resizes the desktop asks for all of it. -/
  | resize
  /-- The update is complete: `*requested = false`. -/
  | finishUpdate
  | checkFocus
  | requestAgain
  /-- The read loop ends, and `running` is cleared. -/
  | endSession
  /-- `set_focused` stores its flag. -/
  | setFocused (focused : Bool)
  /-- The `request_update` of `set_focused(true)`. -/
  | requestFocused
  | setEncodings
  | requestEncoded
deriving DecidableEq, Repr

namespace Updates

/-- `Client::new`: focused until told otherwise. -/
def new : Updates := ⟨false, false, true, [], .connecting, .idle⟩

/-- Asks for the changed areas, unless a request is outstanding. -/
def requestUpdate (s : Updates) : Updates :=
  if s.requested || !s.running then s
  else { s with requested := true, queued := s.queued ++ [.changed] }

/-- Asks for the whole desktop, outstanding request or not. -/
def requestUpdateFull (s : Updates) : Updates :=
  { s with requested := true, queued := s.queued ++ [.whole] }

def step (s : Updates) : UpdateStep → Option Updates
  | .start => if s.reader = .connecting then some { s with running := true, reader := .started } else none
  | .requestFirst => if s.reader = .started then some { s.requestUpdateFull with reader := .blocked } else none
  | .otherMessage => if s.reader = .blocked then some s else none
  | .beginUpdate => if s.reader = .blocked then some { s with reader := .updating } else none
  | .resize => if s.reader = .updating then some s.requestUpdateFull else none
  | .finishUpdate =>
    if s.reader = .updating then some { s with requested := false, queued := [], reader := .cleared } else none
  | .checkFocus =>
    if s.reader = .cleared then some { s with reader := if s.focused then .requesting else .blocked } else none
  | .requestAgain => if s.reader = .requesting then some { s.requestUpdate with reader := .blocked } else none
  | .endSession =>
    if s.reader = .blocked ∨ s.reader = .updating then some { s with running := false, reader := .ended } else none
  | .setFocused focused =>
    if s.ui = .idle then some { s with focused, ui := if focused then .focusing else .idle } else none
  | .requestFocused => if s.ui = .focusing then some { s.requestUpdate with ui := .idle } else none
  | .setEncodings => if s.ui = .idle then some { s with ui := if s.running then .encoding else .idle } else none
  | .requestEncoded => if s.ui = .encoding then some { s.requestUpdateFull with ui := .idle } else none

def after (tr : List UpdateStep) : Option Updates := run step new tr

/-- The argument of the last `set_focused` of the run; a new client is focused. -/
def lastFocused (tr : List UpdateStep) : Bool :=
  tr.foldl (fun last a => match a with
    | .setFocused focused => focused
    | _ => last) true

/-- What every interleaving keeps. The last field is the argument against a
lost wake-up: a focused session whose reader waits has a request outstanding,
unless a `set_focused(true)` is about to see that it has none. -/
structure Inv (s : Updates) : Prop where
  queued : s.requested = true → s.queued ≠ []
  running : s.running = true ↔ s.reader ≠ .connecting ∧ s.reader ≠ .ended
  outstanding : s.reader = .blocked → s.focused = true → s.ui ≠ .focusing → s.requested = true

@[simp]
theorem requestUpdate_requested (s : Updates) : s.requestUpdate.requested = (s.requested || s.running) := by
  cases h : s.requested <;> cases h' : s.running <;> simp [requestUpdate, h, h']

@[simp]
theorem requestUpdate_frame (s : Updates) : s.requestUpdate.running = s.running ∧ s.requestUpdate.focused = s.focused ∧
    s.requestUpdate.reader = s.reader ∧ s.requestUpdate.ui = s.ui := by
  unfold requestUpdate
  split <;> simp

theorem requestUpdate_queued {s : Updates} (h : s.requested = true → s.queued ≠ []) :
    s.requestUpdate.requested = true → s.requestUpdate.queued ≠ [] := by
  unfold requestUpdate
  split
  · exact h
  · simp

theorem inv_step {s s' : Updates} {a : UpdateStep} (hi : s.Inv) (hs : step s a = some s') : s'.Inv := by
  obtain ⟨hq, hrun, hout⟩ := hi
  have hq' := requestUpdate_queued hq
  obtain ⟨h1, h2, h3, h4⟩ := requestUpdate_frame s
  cases a <;> simp only [step] at hs <;> split at hs <;> cases hs
  case start h => exact ⟨hq, by simp, by simp⟩
  case requestFirst h =>
    exact ⟨by simp [requestUpdateFull], by simpa [requestUpdateFull, h] using hrun, fun _ _ _ => rfl⟩
  case otherMessage h => exact ⟨hq, hrun, hout⟩
  case beginUpdate h => exact ⟨hq, by simpa [h] using hrun, by simp⟩
  case resize h => exact ⟨by simp [requestUpdateFull], hrun, fun _ _ _ => rfl⟩
  case finishUpdate h => exact ⟨by simp, by simpa [h] using hrun, by simp⟩
  -- An unfocused reader goes back to its wait without a request.
  case checkFocus h =>
    refine ⟨hq, ?_, fun hb hf => ?_⟩
    · cases hf : s.focused <;> simpa [h] using hrun
    · simp only at hf
      simp [hf] at hb
  case requestAgain h =>
    have hr : s.running = true := hrun.2 (by simp [h])
    exact ⟨hq', by simp [hr], fun _ _ _ => by simp [hr]⟩
  case endSession h => exact ⟨hq, by simp, by simp⟩
  -- The reader may have looked before the flag was stored, so the caller is owed a
  -- request until it has made its own.
  case setFocused focused h =>
    refine ⟨hq, hrun, fun _ hf hu => ?_⟩
    simp only at hf
    simp [hf] at hu
  case requestFocused h =>
    refine ⟨hq', by simpa [h1, h3] using hrun, fun hb _ _ => ?_⟩
    have hr : s.running = true := hrun.2 (by simp_all)
    simp [hr]
  case setEncodings h => exact ⟨hq, hrun, fun hb hf _ => hout hb hf (by simp [h])⟩
  case requestEncoded h => exact ⟨by simp [requestUpdateFull], hrun, fun _ _ _ => rfl⟩

theorem inv_run {tr : List UpdateStep} {s : Updates} (hr : after tr = some s) : s.Inv :=
  trace_inv_all (fun _ s => s.Inv) ⟨by simp [new], by simp [new], by simp [new]⟩
    (fun _ _ _ _ hi hs => inv_step hi hs) hr

theorem focused_run {tr : List UpdateStep} {s : Updates} (hr : after tr = some s) : s.focused = lastFocused tr := by
  refine trace_inv_all (fun tr s => s.focused = lastFocused tr) rfl ?_ hr
  intro tr s a s' hi hs
  obtain ⟨-, h2, -, -⟩ := requestUpdate_frame s
  rw [lastFocused, List.foldl_append, ← lastFocused, ← hi]
  cases a <;> simp only [step] at hs <;> split at hs <;> cases hs <;>
    first
    | rfl
    | exact h2

/-- Whenever a running, focused session waits for the server and no
`set_focused` is under way, an update has been requested since the last one
was completed. -/
theorem update_requested (tr : List UpdateStep) (s : Updates) (hr : after tr = some s) (_hrun : s.running = true)
    (hf : lastFocused tr = true) (hui : s.ui = .idle) (hb : s.reader = .blocked) : s.queued ≠ [] := by
  have hi := inv_run hr
  exact hi.queued (hi.outstanding hb (by rw [focused_run hr, hf]) (by simp [hui]))

/-- The focus returns between the reader's look at it and its wait. -/
def refocused : List UpdateStep :=
  [.start, .requestFirst, .setFocused false, .beginUpdate, .finishUpdate, .checkFocus,
    .setFocused true, .requestFocused]

theorem update_requested_refocus :
    after refocused = some ⟨true, true, true, [.changed], .blocked, .idle⟩ ∧ lastFocused refocused = true ∧
      [UpdateRequest.changed] ≠ [] :=
  ⟨by decide, by decide,
    update_requested refocused ⟨true, true, true, [.changed], .blocked, .idle⟩ (by decide) rfl (by decide) rfl rfl⟩

end Updates

end Vento.Rfb
