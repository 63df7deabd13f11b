import Vento.Control.MouseSink
/-!
# The touchpad's gestures

The state machine of `control/input/GestureRecognizer.java` with its flick momentum
(`control/input/PointerInertia.java`), its wheel (`control/input/WheelSteps.java`) and
its timers. A tap presses its button when the last finger lifts and leaves the release to a timer;
a finger that lands before the timer runs takes the release away and keeps the
button held.

Where the fingers are and when is not part of the state: what the comparisons of
distances and times come out as is an argument of each step (`Reading`), so a
theorem about every run holds whatever they measure. The acceleration of the
pointer only decides how far a move goes. A timer runs when the scheduler likes.
-/

namespace Vento.Control

open Vento.Lib

namespace GestureRecognizer

inductive Mode where
  | none
  | zoom
  | scroll
  | multi
deriving DecidableEq, Repr

/-- The flags of `Config` that the state machine reads. -/
structure Config where
  bumpScrollEnabled : Bool
  bumpStopOutsideBorder : Bool
  inertiaEnabled : Bool
  inertiaCancelOnDown : Bool
  inertiaResetOnDown : Bool
  rawMotionWhenRelative : Bool
deriving DecidableEq, Repr

/-- What a step measures: the comparisons it makes of distances, times and speeds,
the wheel clicks that the travel comes to, and the tap regions' answer. -/
structure Reading where
  hasMoved : Bool
  still : Bool
  pinched : Bool
  scrolled : Bool
  apart : Bool
  vsteps : Int
  hsteps : Int
  inBorder : Bool
  flicked : Bool
  region : Bool
  fast : Bool
deriving DecidableEq, Repr

/-- What the scheduler may run. A tap's release is a new object each time, told
apart by its number. -/
inductive Task where
  | release (n : Nat)
  | bump
  | startGlide
  | tick
deriving DecidableEq, Repr

inductive Inertia where
  | idle
  | sampling
  | gliding
deriving DecidableEq, Repr

inductive ZoomCall where
  | zoomBegan
  | zoomChanged
  | zoomPanned
  | zoomEnded
  | scaleCentre
deriving DecidableEq, Repr

inductive Call where
  | mouse (c : MouseCall)
  | zoom (c : ZoomCall)
deriving DecidableEq, Repr

/-- The recognizer, the posts of its scheduler and the calls of its sinks so far.
`zoomSink` says that there is one, and `regions` that there are tap regions and a
sink for them. -/
structure State where
  cfg : Config
  zoomSink : Bool
  regions : Bool
  relative : Bool
  externalHold : Bool
  slotId : Fin 2 → Int
  slotMoved : Fin 2 → Bool
  down : Nat
  maxDown : Nat
  mode : Mode
  heldButton : Option Button
  pendingRelease : Option Nat
  releases : Nat
  bumpArmed : Bool
  bumpRunning : Bool
  flickCount : Nat
  inertia : Inertia
  samples : Nat
  posts : List Task
  calls : List Call

def init (cfg : Config) (zoomSink : Bool) : State where
  cfg
  zoomSink
  regions := false
  relative := false
  externalHold := false
  slotId := fun _ => -1
  slotMoved := fun _ => false
  down := 0
  maxDown := 0
  mode := .none
  heldButton := none
  pendingRelease := none
  releases := 0
  bumpArmed := false
  bumpRunning := false
  flickCount := 0
  inertia := .idle
  samples := 0
  posts := []
  calls := []

namespace State

def postDelayed (s : State) (t : Task) : State := { s with posts := s.posts ++ [t] }

def removeCallbacks (s : State) (t : Task) : State := { s with posts := s.posts.filter (· ≠ t) }

def emit (s : State) (cs : List Call) : State := { s with calls := s.calls ++ cs }

/-! ## Momentum -/

def sample (s : State) : State :=
  let s := s.removeCallbacks .startGlide
  let s :=
    if s.inertia ≠ .sampling then
      { s.removeCallbacks .tick with
        inertia := .sampling
        samples := if s.cfg.inertiaResetOnDown then 0 else s.samples }
    else s
  { s with samples := if s.samples = 3 then 3 else s.samples + 1 }

def flick (s : State) : State :=
  if s.cfg.inertiaEnabled then (s.removeCallbacks .startGlide).postDelayed .startGlide else s

def cancelInertia (s : State) : State :=
  { (s.removeCallbacks .startGlide).removeCallbacks .tick with inertia := .idle }

def startGlide (s : State) (r : Reading) : State :=
  if s.samples ≠ 3 then s
  else if r.fast then { s with inertia := .gliding }.postDelayed .tick
  else { s with inertia := .idle }

def tick (s : State) (r : Reading) : State :=
  let s := s.emit [.mouse .mouseMove]
  if r.fast then s.postDelayed .tick else { s with inertia := .idle }

/-! ## The wheel -/

/-- `WheelSteps.add`, from the clicks that the travel comes to: whole steps of
each axis, whose sign says which way. -/
def wheelAdd (s : State) (vsteps hsteps : Int) : State :=
  let clicks (n : Nat) (b : Button) : List Call := (List.replicate n ((MouseCall.click b).map Call.mouse)).flatten
  s.emit (clicks vsteps.toNat .wheelDown ++ clicks (-vsteps).toNat .wheelUp ++
    clicks hsteps.toNat .wheelRight ++ clicks (-hsteps).toNat .wheelLeft)

/-! ## The gesture -/

def slotOf (s : State) (id : Int) : Option (Fin 2) :=
  if s.slotId 0 = id then some 0 else if s.slotId 1 = id then some 1 else none

def isMoving (s : State) : Bool :=
  if s.down = 1 then
    if s.slotId 0 ≥ 0 then s.slotMoved 0 else if s.slotId 1 ≥ 0 then s.slotMoved 1 else false
  else s.slotMoved 0 && s.slotMoved 1

def setMode (s : State) (m : Mode) : State :=
  if s.mode = m then s
  else
    let s := if s.mode = .zoom ∧ s.zoomSink then s.emit [.zoom .zoomEnded] else s
    let s := { s with mode := m }
    if s.mode = .zoom ∧ s.zoomSink then s.emit [.zoom .zoomBegan] else s

def stopBumpScroll (s : State) : State :=
  if s.bumpRunning then { s with bumpRunning := false }.removeCallbacks .bump else s

def updateBumpScroll (s : State) (r : Reading) : State :=
  if !s.bumpArmed then s.stopBumpScroll
  else if !r.inBorder && s.cfg.bumpStopOutsideBorder then s.stopBumpScroll
  else
    let s := s.emit [.mouse .mouseMove]
    if !s.bumpRunning then { s with bumpRunning := true }.postDelayed .bump else s

/-- What the timer of the bump scroll runs. -/
def bump (s : State) : State :=
  if s.down ≠ 1 then s.stopBumpScroll else (s.emit [.mouse .mouseMove]).postDelayed .bump

def twoFingerMoved (s : State) (r : Reading) : State :=
  if r.still then s
  else
    let s :=
      if s.mode = .none then
        if r.pinched then s.setMode .zoom else if r.scrolled then s.setMode .scroll else s
      else s
    if s.mode = .zoom then
      if s.zoomSink then s.emit ((if r.apart then [.zoom .zoomChanged] else []) ++ [.zoom .zoomPanned]) else s
    else if s.mode = .scroll then s.wheelAdd r.vsteps r.hsteps
    else s

/-- The button that a tap left held goes up. -/
def letGo (s : State) : State :=
  match s.heldButton with
  | none => s
  | some b => { s.emit [.mouse (.mouseUp b.mask)] with heldButton := none }

/-- Press now; the release is left to the timer. -/
def press (s : State) (b : Button) : State :=
  { s.emit [.mouse (.mouseDown b.mask)] with
    heldButton := some b
    pendingRelease := some s.releases
    releases := s.releases + 1 }.postDelayed (.release s.releases)

/-- What the timer of a tap's release runs. -/
def releaseButton (s : State) : State := { s with pendingRelease := none }.letGo

/-- End of gesture. The held button survives on purpose. -/
def reset (s : State) : State :=
  { s with
    down := 0
    maxDown := 0
    slotId := fun _ => -1
    slotMoved := fun _ => false
    flickCount := 0 }.setMode .none

def regionTapped (s : State) (r : Reading) : Bool := s.regions && s.maxDown = 1 && r.region

/-- The button of a tap of so many fingers. -/
def tapButton : Nat → Option Button
  | 1 => some .left
  | 2 => some .right
  | 3 => some .middle
  | _ => none

def tap (s : State) : State :=
  match tapButton s.maxDown with
  | none => s
  | some b => s.press b

/-- A finger lifted. Only does anything once they are all up. -/
def release (s : State) (r : Reading) (cancelled : Bool) : State :=
  if s.down = 0 then s
  else if s.down - 1 ≠ 0 then { s with down := s.down - 1 }
  else
    let s := { s with down := 0, bumpArmed := false }.stopBumpScroll.letGo
    let s :=
      if s.slotMoved 0 || s.slotMoved 1 || cancelled then
        if !cancelled && !(s.relative && s.cfg.rawMotionWhenRelative) && s.flickCount ≥ 2 && r.flicked then s.flick
        else s
      else if s.regionTapped r then s
      else s.tap
    s.reset

/-- A release that waits is taken back. -/
def dropRelease (s : State) : State :=
  match s.pendingRelease with
  | none => s
  | some n => { s.removeCallbacks (.release n) with pendingRelease := none }

/-- What the first finger of a gesture does to what the last one left. -/
def firstFinger (s : State) : State :=
  let resumed := s.pendingRelease.isSome
  -- the button stays held, which makes a drag or a double click of the tap
  let s := s.dropRelease
  let s := { s with bumpArmed := s.cfg.bumpScrollEnabled && (resumed || s.externalHold) }
  if s.cfg.inertiaCancelOnDown then s.cancelInertia else s

def secondFinger (s : State) : State :=
  let s := s.setMode .none
  if s.zoomSink then s.emit [.zoom .scaleCentre] else s

def touchBegan (s : State) (id : Int) : State :=
  let down := s.down
  let s :=
    if down < 2 then
      { s with slotId := Function.update s.slotId (if s.slotId 0 < 0 then 0 else 1) id }
    else s
  let s := if down = 1 then s.secondFinger else if down = 0 then s.firstFinger else s
  { s with down := down + 1, slotMoved := fun _ => false, maxDown := max s.maxDown (down + 1) }

/-- One finger that has moved moves the pointer. -/
def oneFingerMoved (s : State) (r : Reading) : State :=
  let s := s.updateBumpScroll r
  if s.relative && s.cfg.rawMotionWhenRelative then s.emit [.mouse .mouseMove]
  else (s.emit [.mouse .mouseMove]).sample

def pushFlick (s : State) : State := { s with flickCount := if s.flickCount < 2 then s.flickCount + 1 else s.flickCount }

def touchMoved (s : State) (r : Reading) (id : Int) : State :=
  let s := if s.maxDown = 1 then s.pushFlick else s
  let slot := s.slotOf id
  let s :=
    match slot with
    | none => s
    | some i => { s with slotMoved := Function.update s.slotMoved i (s.slotMoved i || r.hasMoved) }
  if !s.isMoving then s
  else if s.down = 1 then if slot.isNone then s else s.oneFingerMoved r
  else if s.down = 2 then s.twoFingerMoved r
  else s.setMode .multi

def touchEnded (s : State) (r : Reading) (id : Int) : State :=
  let s :=
    match s.slotOf id with
    | none => s
    | some i => { s with slotId := Function.update s.slotId i (-1) }
  s.release r false

/-- `while (down > 0) release(true)`, which lifts one finger each time. -/
def cancelLoop (r : Reading) : Nat → State → State
  | 0, s => s
  | n + 1, s => if s.down > 0 then cancelLoop r n (s.release r true) else s

def touchCancelled (s : State) (r : Reading) : State := cancelLoop r s.down s

def cancelAll (s : State) (r : Reading) : State :=
  let s := (s.touchCancelled r).stopBumpScroll
  let s := { s with bumpArmed := false }.cancelInertia
  s.dropRelease.letGo.reset

end State

/-! ## Runs -/

inductive Act where
  | touchBegan (id : Int)
  | touchMoved (r : Reading) (id : Int)
  | touchEnded (r : Reading) (id : Int)
  | touchCancelled (r : Reading)
  | cancelAll (r : Reading)
  | expire (r : Reading) (t : Task)
  | setConfig (cfg : Config)
  | setRegions (regions : Bool)
  | setRelative (relative : Bool)
  | setExternalButtonHeld (held : Bool)
deriving DecidableEq, Repr

def State.runTask (s : State) (r : Reading) : Task → State
  | .release _ => s.releaseButton
  | .bump => s.bump
  | .startGlide => s.startGlide r
  | .tick => s.tick r

def step (s : State) : Act → Option State
  | .touchBegan id => some (s.touchBegan id)
  | .touchMoved r id => some (s.touchMoved r id)
  | .touchEnded r id => some (s.touchEnded r id)
  | .touchCancelled r => some (s.touchCancelled r)
  | .cancelAll r => some (s.cancelAll r)
  -- a post runs once, and only if nothing has taken it back
  | .expire r t => if t ∈ s.posts then some ({ s with posts := s.posts.erase t }.runTask r t) else none
  | .setConfig cfg => some { s with cfg }
  | .setRegions regions => some { s with regions }
  | .setRelative relative => some { s with relative }
  | .setExternalButtonHeld held => some { s with externalHold := held }

/-! ## What the far end has heard -/

def Call.downs (b : Button) : Call → Bool
  | .mouse c => c.downs b
  | .zoom _ => false

def Call.ups (b : Button) : Call → Bool
  | .mouse c => c.ups b
  | .zoom _ => false

def Call.opensZoom (c : Call) : Bool := c = .zoom .zoomBegan

def Call.closesZoom (c : Call) : Bool := c = .zoom .zoomEnded

/-- The button held and the wheel button whose release is owed. -/
structure Heard where
  held : Option Button
  wheel : Option Button
deriving DecidableEq, Repr

/-- A listener that takes one button at a time, and the press of a wheel button
only with its release right behind it. -/
def hear (h : Heard) : Call → Option Heard
  | .mouse (.mouseDown m) =>
    if h.wheel ≠ none then none
    else
      match Button.all.find? (·.mask = m) with
      | none => none
      | some b =>
        if b.isWheel then some { h with wheel := some b }
        else if h.held = none then some { h with held := some b }
        else none
  | .mouse (.mouseUp m) =>
    match h.wheel, h.held with
    | some w, _ => if m = w.mask then some { h with wheel := none } else none
    | none, some b => if m = b.mask then some { h with held := none } else none
    | none, none => none
  | _ => if h.wheel = none then some h else none

/-- Neither button nor zoom. -/
def Call.neutral : Call → Bool
  | .mouse .mouseMove | .zoom .zoomChanged | .zoom .zoomPanned | .zoom .scaleCentre => true
  | _ => false

theorem move_neutral : ∀ c ∈ [Call.mouse .mouseMove], c.neutral = true := by
  simp [Call.neutral]

theorem find_mask (b : Button) : Button.all.find? (·.mask = b.mask) = some b := by
  cases b <;> decide

theorem hear_mouseDown {b : Button} (hb : b.isWheel = false) :
    hear ⟨none, none⟩ (.mouse (.mouseDown b.mask)) = some ⟨some b, none⟩ := by
  simp [hear, find_mask, hb]

theorem hear_mouseUp (b : Button) : hear ⟨some b, none⟩ (.mouse (.mouseUp b.mask)) = some ⟨none, none⟩ := by
  simp [hear]

/-- A wheel click is taken whatever is held. -/
theorem run_hear_click {w : Button} (hw : w.isWheel = true) (held : Option Button) :
    run hear ⟨held, none⟩ ((MouseCall.click w).map Call.mouse) = some ⟨held, none⟩ := by
  simp [MouseCall.click, run_cons, hear, find_mask, hw]

theorem run_hear_clicks {w : Button} (hw : w.isWheel = true) (held : Option Button) (n : Nat) :
    run hear ⟨held, none⟩ (List.replicate n ((MouseCall.click w).map Call.mouse)).flatten = some ⟨held, none⟩ := by
  induction n with
  | zero => rfl
  | succ n ih =>
    rw [List.replicate_succ, List.flatten_cons, run_append, run_hear_click hw]
    exact ih

theorem hear_neutral {c : Call} (hc : c.neutral = true) (held : Option Button) :
    hear ⟨held, none⟩ c = some ⟨held, none⟩ := by
  cases c with
  | mouse c => cases c <;> simp_all [Call.neutral, hear]
  | zoom c => cases c <;> simp_all [Call.neutral, hear]

theorem run_hear_neutral {cs : List Call} (hcs : ∀ c ∈ cs, c.neutral = true) (held : Option Button) :
    run hear ⟨held, none⟩ cs = some ⟨held, none⟩ := by
  induction cs with
  | nil => rfl
  | cons c cs ih =>
    rw [run_cons, hear_neutral (hcs c List.mem_cons_self)]
    exact ih fun c' h => hcs c' (List.mem_cons_of_mem c h)

/-- What is owed is a wheel button, and what is held is none. -/
def Heard.Apart (h : Heard) : Prop := (∀ b, h.held = some b → b.isWheel = false) ∧ ∀ b, h.wheel = some b → b.isWheel = true

def Heard.holds (h : Heard) (b : Button) : Bool := h.held = some b ∨ h.wheel = some b

/-- A call that the listener takes: nothing to it, a press or a release. -/
theorem hear_cases {h h' : Heard} {c : Call} (hc : hear h c = some h') :
    (h' = h ∧ h.wheel = none ∧ ∀ b, c.downs b = false ∧ c.ups b = false) ∨
    (∃ w, c = .mouse (.mouseDown w.mask) ∧ w.isWheel = true ∧ h.wheel = none ∧ h' = { h with wheel := some w }) ∨
    (∃ w, c = .mouse (.mouseUp w.mask) ∧ h.wheel = some w ∧ h' = { h with wheel := none }) ∨
    (∃ b, c = .mouse (.mouseDown b.mask) ∧ b.isWheel = false ∧ h.wheel = none ∧ h.held = none ∧
      h' = { h with held := some b }) ∨
    (∃ b, c = .mouse (.mouseUp b.mask) ∧ h.wheel = none ∧ h.held = some b ∧ h' = { h with held := none }) := by
  obtain ⟨held, wheel⟩ := h
  cases c with
  | zoom z =>
    cases wheel with
    | none => exact .inl ⟨by simpa [hear] using hc.symm, rfl, fun b => ⟨rfl, rfl⟩⟩
    | some w => simp [hear] at hc
  | mouse c =>
    cases c with
    | mouseMove =>
      cases wheel with
      | none => exact .inl ⟨by simpa [hear] using hc.symm, rfl, fun b => ⟨rfl, rfl⟩⟩
      | some w => simp [hear] at hc
    | mouseDown m =>
      cases wheel with
      | some w => simp [hear] at hc
      | none =>
        simp only [hear, ne_eq, not_true_eq_false, if_false] at hc
        split at hc
        · cases hc
        · rename_i b hb
          obtain rfl : b.mask = m := by simpa using List.find?_some hb
          by_cases hw : b.isWheel = true
          · rw [if_pos hw] at hc
            exact .inr (.inl ⟨b, rfl, hw, rfl, by simpa using hc.symm⟩)
          · rw [if_neg hw] at hc
            split at hc
            · exact .inr (.inr (.inr (.inl ⟨b, rfl, by simpa using hw, rfl, ‹_›, by simpa using hc.symm⟩)))
            · cases hc
    | mouseUp m =>
      cases wheel with
      | some w =>
        simp only [hear] at hc
        split at hc
        · subst_vars
          exact .inr (.inr (.inl ⟨w, rfl, rfl, by simpa using hc.symm⟩))
        · cases hc
      | none =>
        cases held with
        | none => simp [hear] at hc
        | some b =>
          simp only [hear] at hc
          split at hc
          · subst_vars
            exact .inr (.inr (.inr (.inr ⟨b, rfl, rfl, rfl, by simpa using hc.symm⟩)))
          · cases hc

@[simp]
theorem downs_mouseDown (b c : Button) : Call.downs b (.mouse (.mouseDown c.mask)) = decide (b = c) :=
  Button.isIn_mask b c

@[simp]
theorem ups_mouseUp (b c : Button) : Call.ups b (.mouse (.mouseUp c.mask)) = decide (b = c) :=
  Button.isIn_mask b c

@[simp]
theorem ups_mouseDown (b : Button) (m : UInt32) : Call.ups b (.mouse (.mouseDown m)) = false := rfl

@[simp]
theorem downs_mouseUp (b : Button) (m : UInt32) : Call.downs b (.mouse (.mouseUp m)) = false := rfl

/-- What one listener has taken is, for each button, pressed and released in turn. -/
theorem hear_alternates (b : Button) (h : Heard) (c : Call) (h' : Heard) (ha : h.Apart) (hc : hear h c = some h') :
    h'.Apart ∧ alternate (Call.downs b) (Call.ups b) (h.holds b) c = some (h'.holds b) := by
  obtain ⟨hheld, hwheel⟩ := ha
  rcases hear_cases hc with ⟨rfl, -, hn⟩ | ⟨w, rfl, hw, hn, rfl⟩ | ⟨w, rfl, hs, rfl⟩ | ⟨d, rfl, hd, hn, hs, rfl⟩ |
    ⟨d, rfl, hn, hs, rfl⟩
  · exact ⟨⟨hheld, hwheel⟩, alternate_other (hn b).1 (hn b).2⟩
  · refine ⟨⟨hheld, by simpa using hw⟩, ?_⟩
    -- a wheel button is not the one held
    have hb : b = w → h.held ≠ some b := by
      rintro rfl hb
      simp [hheld b hb] at hw
    by_cases hbw : b = w
    · simp [alternate, Heard.holds, hn, hb hbw, hbw.symm]
    · simp [alternate, Heard.holds, hn, hbw, Ne.symm hbw]
  · refine ⟨⟨hheld, by simp⟩, ?_⟩
    have hb : b = w → h.held ≠ some b := by
      rintro rfl hb
      exact absurd (hwheel b hs) (by simp [hheld b hb])
    by_cases hbw : b = w
    · simp [alternate, Heard.holds, hs, hb hbw, hbw.symm]
    · simp [alternate, Heard.holds, hs, hbw, Ne.symm hbw]
  · refine ⟨⟨by simpa using hd, hwheel⟩, ?_⟩
    by_cases hbd : b = d
    · simp [alternate, Heard.holds, hn, hs, hbd]
    · simp [alternate, Heard.holds, hn, hs, hbd, Ne.symm hbd]
  · refine ⟨⟨by simp, hwheel⟩, ?_⟩
    by_cases hbd : b = d
    · simp [alternate, Heard.holds, hn, hs, hbd]
    · simp [alternate, Heard.holds, hn, hs, hbd, Ne.symm hbd]

/-! ## What holds between the steps -/

/-- The far end has heard of the button held and of the zoom that is open, and the
posts are those that the fields know of. -/
structure Ledger (calls : List Call) (held : Option Button) (zoom : Bool) (posts : List Task) (pending : Option Nat)
    (bump : Bool) : Prop where
  heard : run hear ⟨none, none⟩ calls = some ⟨held, none⟩
  zoomed : run (alternate Call.opensZoom Call.closesZoom) false calls = some zoom
  release : ∀ n, posts.count (.release n) = if pending = some n then 1 else 0
  bump : posts.count .bump = if bump then 1 else 0

namespace Ledger

variable {calls cs : List Call} {held held' : Option Button} {zoom bump : Bool} {posts : List Task}
  {pending : Option Nat}

theorem hears (h : Ledger calls held zoom posts pending bump)
    (hcs : run hear ⟨held, none⟩ cs = some ⟨held', none⟩)
    (hz : ∀ c ∈ cs, c.opensZoom = false ∧ c.closesZoom = false) :
    Ledger (calls ++ cs) held' zoom posts pending bump where
  heard := by rw [run_append, h.heard]; exact hcs
  zoomed := by rw [run_append, h.zoomed]; exact run_alternate_other hz
  release := h.release
  bump := h.bump

theorem neutral (h : Ledger calls held zoom posts pending bump) (hcs : ∀ c ∈ cs, c.neutral = true) :
    Ledger (calls ++ cs) held zoom posts pending bump := by
  refine h.hears (run_hear_neutral hcs held) fun c hc => ?_
  have hn := hcs c hc
  cases c with
  | mouse c => exact ⟨rfl, rfl⟩
  | zoom c => cases c <;> first | exact ⟨rfl, rfl⟩ | cases hn

theorem zoomBegan (h : Ledger calls held false posts pending bump) :
    Ledger (calls ++ [.zoom .zoomBegan]) held true posts pending bump where
  heard := by rw [run_append, h.heard]; rfl
  zoomed := by rw [run_append, h.zoomed]; rfl
  release := h.release
  bump := h.bump

theorem zoomEnded (h : Ledger calls held true posts pending bump) :
    Ledger (calls ++ [.zoom .zoomEnded]) held false posts pending bump where
  heard := by rw [run_append, h.heard]; rfl
  zoomed := by rw [run_append, h.zoomed]; rfl
  release := h.release
  bump := h.bump

theorem mouseUp {b : Button} (h : Ledger calls (some b) zoom posts pending bump) :
    Ledger (calls ++ [.mouse (.mouseUp b.mask)]) none zoom posts pending bump := by
  refine h.hears (by simp [run_cons, hear_mouseUp]) ?_
  simp [Call.opensZoom, Call.closesZoom]

theorem mouseDown {b : Button} (h : Ledger calls none zoom posts none bump) (hb : b.isWheel = false) (n : Nat) :
    Ledger (calls ++ [.mouse (.mouseDown b.mask)]) (some b) zoom (posts ++ [.release n]) (some n) bump where
  heard := by rw [run_append, h.heard]; simp [run_cons, hear_mouseDown hb]
  zoomed := by rw [run_append, h.zoomed]; rfl
  release m := by
    rw [List.count_append, h.release m]
    by_cases hm : n = m
    · simp [hm]
    · simp [hm]
  bump := by simpa using h.bump

theorem clicks {w : Button} (h : Ledger calls held zoom posts pending bump) (hw : w.isWheel = true) (n : Nat) :
    Ledger (calls ++ (List.replicate n ((MouseCall.click w).map Call.mouse)).flatten) held zoom posts pending bump := by
  refine h.hears (run_hear_clicks hw held n) fun c hc => ?_
  obtain ⟨l, hl, hc⟩ := List.mem_flatten.1 hc
  rw [List.eq_of_mem_replicate hl] at hc
  obtain ⟨c, -, rfl⟩ := List.mem_map.1 hc
  exact ⟨rfl, rfl⟩

/-- A post of the glide is known to no field. -/
theorem post_glide {t : Task} (h : Ledger calls held zoom posts pending bump) (ht : t = .startGlide ∨ t = .tick) :
    Ledger calls held zoom (posts ++ [t]) pending bump where
  heard := h.heard
  zoomed := h.zoomed
  release n := by
    rw [List.count_append, h.release n]
    rcases ht with rfl | rfl <;> simp
  bump := by
    rw [List.count_append, h.bump]
    rcases ht with rfl | rfl <;> simp

theorem count_unpost (posts : List Task) (t u : Task) :
    (posts.filter (· ≠ t)).count u = if u = t then 0 else posts.count u := by
  split
  · subst_vars
    rw [List.count_eq_zero]
    simp
  · exact List.count_filter (by simpa using ‹_›)

theorem unpost_glide {t : Task} (h : Ledger calls held zoom posts pending bump) (ht : t = .startGlide ∨ t = .tick) :
    Ledger calls held zoom (posts.filter (· ≠ t)) pending bump where
  heard := h.heard
  zoomed := h.zoomed
  release n := by
    rw [count_unpost, h.release n, if_neg]
    rcases ht with rfl | rfl <;> simp
  bump := by
    rw [count_unpost, h.bump, if_neg]
    rcases ht with rfl | rfl <;> simp

theorem unpost_release {n : Nat} (h : Ledger calls held zoom posts (some n) bump) :
    Ledger calls held zoom (posts.filter (· ≠ .release n)) none bump where
  heard := h.heard
  zoomed := h.zoomed
  release m := by
    rw [count_unpost, h.release m]
    by_cases hm : m = n
    · simp [hm]
    · simp [hm, Ne.symm hm]
  bump := by rw [count_unpost, h.bump]; simp

theorem unpost_bump {b : Bool} (h : Ledger calls held zoom posts pending b) :
    Ledger calls held zoom (posts.filter (· ≠ .bump)) pending false where
  heard := h.heard
  zoomed := h.zoomed
  release n := by rw [count_unpost, h.release n]; simp
  bump := by rw [count_unpost]; simp

theorem post_bump (h : Ledger calls held zoom posts pending false) :
    Ledger calls held zoom (posts ++ [.bump]) pending true where
  heard := h.heard
  zoomed := h.zoomed
  release n := by rw [List.count_append, h.release n]; simp
  bump := by rw [List.count_append, h.bump]; simp

/-! A post that the scheduler takes to run it. -/

theorem take_glide {t : Task} (h : Ledger calls held zoom posts pending bump) (ht : t = .startGlide ∨ t = .tick) :
    Ledger calls held zoom (posts.erase t) pending bump where
  heard := h.heard
  zoomed := h.zoomed
  release n := by
    rw [List.count_erase, h.release n]
    rcases ht with rfl | rfl <;> simp
  bump := by
    rw [List.count_erase, h.bump]
    rcases ht with rfl | rfl <;> simp

theorem take_bump (h : Ledger calls held zoom posts pending bump) :
    Ledger calls held zoom (posts.erase .bump) pending false where
  heard := h.heard
  zoomed := h.zoomed
  release n := by rw [List.count_erase, h.release n]; simp
  bump := by rw [List.count_erase, h.bump]; cases bump <;> rfl

theorem bump_of_mem (h : Ledger calls held zoom posts pending bump) (ht : .bump ∈ posts) : bump = true := by
  have hpos := List.count_pos_iff.2 ht
  rw [h.bump] at hpos
  by_contra hne
  rw [if_neg hne] at hpos
  exact Nat.lt_irrefl 0 hpos

theorem take_release {n : Nat} (h : Ledger calls held zoom posts pending bump) (hn : .release n ∈ posts) :
    Ledger calls held zoom (posts.erase (.release n)) none bump where
  heard := h.heard
  zoomed := h.zoomed
  release m := by
    have hpos := List.count_pos_iff.2 hn
    rw [h.release n] at hpos
    have hp : pending = some n := by
      by_contra hne
      rw [if_neg hne] at hpos
      exact Nat.lt_irrefl 0 hpos
    rw [List.count_erase, h.release m, hp]
    by_cases hm : n = m
    · simp [hm]
    · simp [hm]
  bump := by rw [List.count_erase, h.bump]; simp

end Ledger

namespace State

def zoomOpen (s : State) : Bool := s.zoomSink && s.mode = .zoom

def Sound (s : State) : Prop := Ledger s.calls s.heldButton s.zoomOpen s.posts s.pendingRelease s.bumpRunning

/-- Fingers, button and pending release are as they were, and the ledger is kept. -/
structure Quiet (s t : State) : Prop where
  down : t.down = s.down
  held : t.heldButton = s.heldButton
  pending : t.pendingRelease = s.pendingRelease
  sound : s.Sound → t.Sound

theorem Quiet.refl (s : State) : Quiet s s := ⟨rfl, rfl, rfl, id⟩

theorem Quiet.trans {s t u : State} (h : Quiet s t) (h' : Quiet t u) : Quiet s u where
  down := h'.down.trans h.down
  held := h'.held.trans h.held
  pending := h'.pending.trans h.pending
  sound hs := h'.sound (h.sound hs)

theorem emit_quiet (s : State) {cs : List Call} (hcs : ∀ c ∈ cs, c.neutral = true) : Quiet s (s.emit cs) :=
  ⟨rfl, rfl, rfl, fun h => h.neutral hcs⟩

theorem mouseMove_quiet (s : State) : Quiet s (s.emit [.mouse .mouseMove]) := s.emit_quiet move_neutral

theorem setMode_quiet (s : State) (m : Mode) : Quiet s (s.setMode m) := by
  by_cases hm : s.mode = m
  · rw [setMode, if_pos hm]
    exact .refl s
  rw [setMode, if_neg hm]
  dsimp only
  by_cases hz : s.mode = .zoom ∧ s.zoomSink = true
  · have hne : ¬m = .zoom := fun h => hm (hz.1.trans h.symm)
    have hopen : s.zoomOpen = true := by simp [zoomOpen, hz.1, hz.2]
    rw [if_pos hz, if_neg (fun h => hne h.1)]
    refine ⟨rfl, rfl, rfl, fun h => ?_⟩
    have hclosed : ({ s.emit [.zoom .zoomEnded] with mode := m } : State).zoomOpen = false := by simp [zoomOpen, hne]
    rw [Sound, hopen] at h
    rw [Sound, hclosed]
    exact h.zoomEnded
  · have hopen : s.zoomOpen = false := by simp [zoomOpen]; tauto
    rw [if_neg hz]
    split
    · rename_i hb
      refine ⟨rfl, rfl, rfl, fun h => ?_⟩
      have hopened : ({ s with mode := m } : State).zoomOpen = true := by simpa [zoomOpen, and_comm] using hb
      rw [Sound, hopen] at h
      have := h.zoomBegan
      rw [← hopened] at this
      exact this
    · rename_i hb
      refine ⟨rfl, rfl, rfl, fun h => ?_⟩
      have hclosed : ({ s with mode := m } : State).zoomOpen = false := by simpa [zoomOpen, and_comm] using hb
      rw [Sound, hopen] at h
      rw [Sound, hclosed]
      exact h

theorem sample_quiet (s : State) : Quiet s s.sample := by
  have hg : Quiet s (s.removeCallbacks .startGlide) := ⟨rfl, rfl, rfl, fun h => h.unpost_glide (.inl rfl)⟩
  refine hg.trans ?_
  rw [sample]
  dsimp only
  split
  · exact ⟨rfl, rfl, rfl, fun h => h.unpost_glide (.inr rfl)⟩
  · exact ⟨rfl, rfl, rfl, id⟩

theorem flick_quiet (s : State) : Quiet s s.flick := by
  rw [flick]
  split
  · exact ⟨rfl, rfl, rfl, fun h => (h.unpost_glide (.inl rfl)).post_glide (.inl rfl)⟩
  · exact .refl s

theorem cancelInertia_quiet (s : State) : Quiet s s.cancelInertia :=
  ⟨rfl, rfl, rfl, fun h => (h.unpost_glide (.inl rfl)).unpost_glide (.inr rfl)⟩

theorem wheelAdd_quiet (s : State) (v h : Int) : Quiet s (s.wheelAdd v h) := by
  refine ⟨rfl, rfl, rfl, fun hs => ?_⟩
  have := (((hs.clicks (w := .wheelDown) rfl v.toNat).clicks (w := .wheelUp) rfl (-v).toNat).clicks (w := .wheelRight)
    rfl h.toNat).clicks (w := .wheelLeft) rfl (-h).toNat
  simp only [List.append_assoc] at this
  simp only [wheelAdd, List.append_assoc]
  exact this

theorem stopBumpScroll_quiet (s : State) : Quiet s s.stopBumpScroll := by
  rw [stopBumpScroll]
  split
  · exact ⟨rfl, rfl, rfl, fun h => h.unpost_bump⟩
  · exact .refl s

theorem updateBumpScroll_quiet (s : State) (r : Reading) : Quiet s (s.updateBumpScroll r) := by
  rw [updateBumpScroll]
  split
  · exact s.stopBumpScroll_quiet
  split
  · exact s.stopBumpScroll_quiet
  refine s.mouseMove_quiet.trans ?_
  dsimp only
  split
  · rename_i hb
    refine ⟨rfl, rfl, rfl, fun h => ?_⟩
    have hb : (s.emit [.mouse .mouseMove]).bumpRunning = false := by simpa using hb
    rw [Sound, hb] at h
    exact h.post_bump
  · exact .refl _

theorem twoFingerMoved_quiet (s : State) (r : Reading) : Quiet s (s.twoFingerMoved r) := by
  have hmode : Quiet s (if s.mode = .none then
      if r.pinched then s.setMode .zoom else if r.scrolled then s.setMode .scroll else s else s) := by
    split
    · split
      · exact s.setMode_quiet .zoom
      split
      · exact s.setMode_quiet .scroll
      · exact .refl s
    · exact .refl s
  rw [twoFingerMoved]
  split
  · exact .refl s
  refine hmode.trans ?_
  generalize (if s.mode = .none then
    if r.pinched then s.setMode .zoom else if r.scrolled then s.setMode .scroll else s else s) = t
  dsimp only
  split
  · split
    · apply emit_quiet
      cases r.apart <;> simp [Call.neutral]
    · exact .refl t
  split
  · exact t.wheelAdd_quiet r.vsteps r.hsteps
  · exact .refl t

theorem secondFinger_quiet (s : State) : Quiet s s.secondFinger := by
  refine (s.setMode_quiet .none).trans ?_
  rw [secondFinger]
  split
  · apply emit_quiet
    simp [Call.neutral]
  · exact .refl _

theorem oneFingerMoved_quiet (s : State) (r : Reading) : Quiet s (s.oneFingerMoved r) := by
  refine (s.updateBumpScroll_quiet r).trans ?_
  rw [oneFingerMoved]
  refine (mouseMove_quiet _).trans ?_
  split
  · exact .refl _
  · exact sample_quiet _

theorem touchMoved_quiet (s : State) (r : Reading) (id : Int) : Quiet s (s.touchMoved r id) := by
  unfold touchMoved
  extract_lets s₁ slot s₂
  have h₁ : Quiet s s₁ := by
    unfold s₁
    split
    · exact ⟨rfl, rfl, rfl, fun h => h⟩
    · exact .refl s
  have h₂ : Quiet s₁ s₂ := by
    unfold s₂
    clear_value slot
    split
    · exact .refl s₁
    · exact ⟨rfl, rfl, rfl, fun h => h⟩
  refine (h₁.trans h₂).trans ?_
  split
  · exact .refl s₂
  split
  · split
    · exact .refl s₂
    · exact s₂.oneFingerMoved_quiet r
  split
  · exact s₂.twoFingerMoved_quiet r
  · exact s₂.setMode_quiet .multi

/-- A release waits only while a button is held and no finger is down. -/
structure Inv (s : State) : Prop where
  sound : s.Sound
  pending : s.pendingRelease ≠ none → s.heldButton ≠ none ∧ s.down = 0

theorem Quiet.inv {s t : State} (h : Quiet s t) (hs : s.Inv) : t.Inv where
  sound := h.sound hs.sound
  pending := by
    rw [h.pending, h.held, h.down]
    exact hs.pending

theorem letGo_sound {s : State} (h : s.Sound) : s.letGo.Sound := by
  rw [letGo]
  split
  · exact h
  · rename_i b hb
    rw [Sound, hb] at h
    exact h.mouseUp

@[simp]
theorem letGo_heldButton (s : State) : s.letGo.heldButton = none := by
  rw [letGo]
  split
  · assumption
  · rfl

/-- Letting go changes only the button and what the far end hears of it. -/
theorem letGo_frame (s : State) :
    s.letGo.down = s.down ∧ s.letGo.pendingRelease = s.pendingRelease ∧ s.letGo.posts = s.posts ∧
      s.letGo.bumpRunning = s.bumpRunning := by
  rw [letGo]
  split <;> exact ⟨rfl, rfl, rfl, rfl⟩

theorem setMode_frame (s : State) (m : Mode) :
    (s.setMode m).mode = m ∧ (s.setMode m).posts = s.posts ∧ (s.setMode m).bumpRunning = s.bumpRunning := by
  by_cases hm : s.mode = m
  · rw [setMode, if_pos hm]
    exact ⟨hm, rfl, rfl⟩
  · rw [setMode, if_neg hm]
    dsimp only
    split <;> split <;> exact ⟨rfl, rfl, rfl⟩

theorem reset_sound {s : State} (h : s.Sound) : s.reset.Sound :=
  (setMode_quiet _ .none).sound h

@[simp]
theorem reset_down (s : State) : s.reset.down = 0 := (setMode_quiet _ .none).down

@[simp]
theorem reset_heldButton (s : State) : s.reset.heldButton = s.heldButton := (setMode_quiet _ .none).held

@[simp]
theorem reset_pendingRelease (s : State) : s.reset.pendingRelease = s.pendingRelease :=
  (setMode_quiet _ .none).pending

@[simp]
theorem reset_mode (s : State) : s.reset.mode = .none := (setMode_frame _ .none).1

theorem tapButton_isWheel {n : Nat} {b : Button} (h : tapButton n = some b) : b.isWheel = false := by
  unfold tapButton at h
  split at h <;> cases h <;> rfl

/-- A tap's button goes down with its release posted, when nothing is held. -/
theorem tap_sound {s : State} (h : s.Sound) (hheld : s.heldButton = none) (hp : s.pendingRelease = none) :
    s.tap.Sound ∧ (s.tap.pendingRelease ≠ none → s.tap.heldButton ≠ none) := by
  rw [tap]
  split
  · exact ⟨h, fun hne => absurd hp hne⟩
  · rename_i b hb
    rw [Sound, hheld, hp] at h
    exact ⟨h.mouseDown (tapButton_isWheel hb) s.releases, fun _ => Option.some_ne_none b⟩

theorem release_inv {s : State} (h : s.Inv) (r : Reading) (cancelled : Bool) : (s.release r cancelled).Inv := by
  unfold release
  split
  · exact h
  rename_i hd
  -- with a finger down no release waits
  have hp : s.pendingRelease = none := by
    by_contra hp
    exact hd (h.pending hp).2
  split
  · exact ⟨h.sound, fun hne => absurd hp hne⟩
  extract_lets s₁ s₂
  have hstop := stopBumpScroll_quiet { s with down := 0, bumpArmed := false }
  have h₁ : s₁.Sound := letGo_sound (hstop.sound h.sound)
  have hheld₁ : s₁.heldButton = none := letGo_heldButton _
  have hp₁ : s₁.pendingRelease = none := (letGo_frame _).2.1.trans (hstop.pending.trans hp)
  have h₂ : s₂.Sound ∧ (s₂.pendingRelease ≠ none → s₂.heldButton ≠ none) := by
    unfold s₂
    clear_value s₁
    split
    · split
      · exact ⟨s₁.flick_quiet.sound h₁, by rw [s₁.flick_quiet.pending]; exact fun hne => absurd hp₁ hne⟩
      · exact ⟨h₁, fun hne => absurd hp₁ hne⟩
    split
    · exact ⟨h₁, fun hne => absurd hp₁ hne⟩
    · exact tap_sound h₁ hheld₁ hp₁
  refine ⟨reset_sound h₂.1, ?_⟩
  rw [reset_pendingRelease, reset_heldButton, reset_down]
  exact fun hne => ⟨h₂.2 hne, rfl⟩

@[simp]
theorem release_down (s : State) (r : Reading) (cancelled : Bool) : (s.release r cancelled).down = s.down - 1 := by
  unfold release
  split
  · omega
  split
  · rfl
  · rw [reset_down]
    omega

theorem touchEnded_inv {s : State} (h : s.Inv) (r : Reading) (id : Int) : (s.touchEnded r id).Inv := by
  unfold touchEnded
  apply release_inv
  split
  · exact h
  · exact ⟨h.sound, h.pending⟩

@[simp]
theorem touchEnded_down (s : State) (r : Reading) (id : Int) : (s.touchEnded r id).down = s.down - 1 := by
  unfold touchEnded
  rw [release_down]
  split <;> rfl

theorem cancelLoop_inv {s : State} (h : s.Inv) (r : Reading) (n : Nat) : (cancelLoop r n s).Inv := by
  induction n generalizing s with
  | zero => exact h
  | succ n ih =>
    rw [cancelLoop]
    split
    · exact ih (release_inv h r true)
    · exact h

theorem cancelLoop_down (s : State) (r : Reading) (n : Nat) (h : s.down ≤ n) : (cancelLoop r n s).down = 0 := by
  induction n generalizing s with
  | zero => exact Nat.le_zero.1 h
  | succ n ih =>
    rw [cancelLoop]
    split
    · apply ih
      rw [release_down]
      omega
    · omega

@[simp]
theorem touchCancelled_down (s : State) (r : Reading) : (s.touchCancelled r).down = 0 :=
  cancelLoop_down s r s.down (Nat.le_refl s.down)

theorem dropRelease_sound {s : State} (h : s.Sound) : s.dropRelease.Sound := by
  rw [dropRelease]
  split
  · exact h
  · rename_i n hn
    rw [Sound, hn] at h
    exact h.unpost_release

theorem dropRelease_frame (s : State) :
    s.dropRelease.pendingRelease = none ∧ s.dropRelease.down = s.down ∧ s.dropRelease.bumpRunning = s.bumpRunning ∧
      s.dropRelease.posts ⊆ s.posts := by
  rw [dropRelease]
  split
  · exact ⟨‹_›, rfl, rfl, fun t ht => ht⟩
  · exact ⟨rfl, rfl, rfl, List.filter_subset_self s.posts⟩

theorem firstFinger_sound {s : State} (h : s.Sound) :
    s.firstFinger.Sound ∧ s.firstFinger.pendingRelease = none ∧ s.firstFinger.down = s.down := by
  unfold firstFinger
  extract_lets resumed s₁ s₂
  obtain ⟨hp, hd, -⟩ := s.dropRelease_frame
  have hq : ∀ t : State, Quiet s₂ t → t.Sound ∧ t.pendingRelease = none ∧ t.down = s.down :=
    fun t ht => ⟨ht.sound (dropRelease_sound h), ht.pending.trans hp, ht.down.trans hd⟩
  split
  · exact hq _ s₂.cancelInertia_quiet
  · exact hq _ (.refl s₂)

theorem touchBegan_inv {s : State} (h : s.Inv) (id : Int) : (s.touchBegan id).Inv := by
  unfold touchBegan
  extract_lets down s₁ s₂
  have h₁ : s₁.Sound ∧ s₁.pendingRelease = s.pendingRelease := by
    unfold s₁
    split
    · exact ⟨h.sound, rfl⟩
    · exact ⟨h.sound, rfl⟩
  have h₂ : s₂.Sound ∧ s₂.pendingRelease = none := by
    unfold s₂
    by_cases hd : s.down = 0
    · obtain ⟨hs, hp, -⟩ := firstFinger_sound h₁.1
      rw [if_neg (by unfold down; omega), if_pos hd]
      exact ⟨hs, hp⟩
    · have hp : s₁.pendingRelease = none := by
        rw [h₁.2]
        by_contra hp
        exact hd (h.pending hp).2
      split
      · exact ⟨s₁.secondFinger_quiet.sound h₁.1, s₁.secondFinger_quiet.pending.trans hp⟩
      · exact ⟨h₁.1, hp⟩
  exact ⟨h₂.1, fun hne => absurd h₂.2 hne⟩

@[simp]
theorem touchBegan_down (s : State) (id : Int) : (s.touchBegan id).down = s.down + 1 := rfl

/-- Nothing is held, open or posted. -/
structure AtRest (s : State) : Prop where
  held : s.heldButton = none
  pending : s.pendingRelease = none
  mode : s.mode = .none
  posts : s.posts = []

theorem stopBumpScroll_bumpRunning (s : State) : s.stopBumpScroll.bumpRunning = false := by
  rw [stopBumpScroll]
  split
  · rfl
  · exact eq_false_of_ne_true ‹_›

theorem cancelAll_sound {s : State} (h : s.Inv) (r : Reading) : (s.cancelAll r).Sound ∧ (s.cancelAll r).AtRest := by
  unfold cancelAll
  extract_lets s₁ s₂
  have hs₁ : s₁.Sound := (stopBumpScroll_quiet _).sound (cancelLoop_inv h r s.down).sound
  have hs₂ : s₂.Sound := (cancelInertia_quiet _).sound hs₁
  have hs₃ : s₂.dropRelease.letGo.reset.Sound := reset_sound (letGo_sound (dropRelease_sound hs₂))
  obtain ⟨hp, -, hb, hsub⟩ := s₂.dropRelease_frame
  obtain ⟨-, hp', hposts', hb'⟩ := s₂.dropRelease.letGo_frame
  obtain ⟨-, hposts, hbump⟩ := setMode_frame { s₂.dropRelease.letGo with
    down := 0, maxDown := 0, slotId := fun _ => -1, slotMoved := fun _ => false, flickCount := 0 } .none
  have hrun : s₂.dropRelease.letGo.reset.bumpRunning = false :=
    hbump.trans (hb'.trans (hb.trans (stopBumpScroll_bumpRunning _)))
  have hnone : s₂.dropRelease.letGo.reset.pendingRelease = none := (reset_pendingRelease _).trans (hp'.trans hp)
  refine ⟨hs₃, (reset_heldButton _).trans (letGo_heldButton _), hnone, reset_mode _, ?_⟩
  rw [List.eq_nil_iff_forall_not_mem]
  intro t ht
  -- the posts of the glide were taken back, and the fields know of no other
  have hglide : t ≠ .startGlide ∧ t ≠ .tick := by
    rw [show s₂.dropRelease.letGo.reset.posts = s₂.dropRelease.posts from hposts.trans hposts'] at ht
    have := hsub ht
    simp only [s₂, cancelInertia, removeCallbacks, List.mem_filter, decide_eq_true_eq] at this
    exact ⟨this.1.2, this.2⟩
  have hcount := List.count_pos_iff.2 ht
  cases t with
  | release n =>
    rw [hs₃.release n, hnone] at hcount
    simp at hcount
  | bump =>
    rw [hs₃.bump, hrun] at hcount
    simp at hcount
  | startGlide => exact hglide.1 rfl
  | tick => exact hglide.2 rfl

theorem cancelAll_inv {s : State} (h : s.Inv) (r : Reading) : (s.cancelAll r).Inv := by
  obtain ⟨hs, hr⟩ := cancelAll_sound h r
  exact ⟨hs, fun hne => absurd hr.pending hne⟩

@[simp]
theorem cancelAll_down (s : State) (r : Reading) : (s.cancelAll r).down = 0 := reset_down _

/-- What a timer does when it runs. -/
theorem runTask_inv {s : State} (h : s.Inv) (r : Reading) {t : Task} (ht : t ∈ s.posts) :
    ({ s with posts := s.posts.erase t }.runTask r t).Inv := by
  have hl := h.sound
  cases t with
  | release n =>
    refine ⟨letGo_sound (Ledger.take_release hl ht), fun hne => absurd ?_ hne⟩
    exact (letGo_frame _).2.1
  | bump =>
    have hb : s.bumpRunning = true := hl.bump_of_mem ht
    have hl := Ledger.take_bump hl
    simp only [runTask, bump]
    split
    · rw [stopBumpScroll, if_pos hb]
      exact ⟨hl.unpost_bump, h.pending⟩
    · refine ⟨?_, h.pending⟩
      have hl := (Ledger.neutral hl move_neutral).post_bump
      rw [← hb] at hl
      exact hl
  | startGlide =>
    simp only [runTask, startGlide]
    have hl := Ledger.take_glide hl (.inl rfl : Task.startGlide = .startGlide ∨ _)
    split
    · exact ⟨hl, h.pending⟩
    split
    · exact ⟨hl.post_glide (.inr rfl), h.pending⟩
    · exact ⟨hl, h.pending⟩
  | tick =>
    have hq : Quiet { s with posts := s.posts.erase .tick } (({ s with posts := s.posts.erase .tick } : State).tick r) := by
      rw [tick]
      refine (mouseMove_quiet _).trans ?_
      split
      · exact ⟨rfl, rfl, rfl, fun h => h.post_glide (.inr rfl)⟩
      · exact ⟨rfl, rfl, rfl, fun h => h⟩
    exact hq.inv ⟨Ledger.take_glide hl (.inr rfl), h.pending⟩

/-- No timer lifts a finger. -/
theorem runTask_down (s : State) (r : Reading) (t : Task) : (s.runTask r t).down = s.down := by
  cases t with
  | release n => exact (letGo_frame _).1
  | bump =>
    simp only [runTask, bump]
    split
    · exact s.stopBumpScroll_quiet.down
    · rfl
  | startGlide =>
    simp only [runTask, startGlide]
    split
    · rfl
    · split <;> rfl
  | tick =>
    simp only [runTask, tick]
    split <;> rfl

end State

theorem init_inv (cfg : Config) (zoomSink : Bool) : (init cfg zoomSink).Inv where
  sound :=
    { heard := rfl
      zoomed := by simp [init, State.zoomOpen]
      release := fun n => rfl
      bump := rfl }
  pending h := absurd rfl h

theorem step_inv {s s' : State} {a : Act} (h : s.Inv) (hs : step s a = some s') : s'.Inv := by
  cases a with
  | touchBegan id => cases hs; exact State.touchBegan_inv h id
  | touchMoved r id => cases hs; exact (s.touchMoved_quiet r id).inv h
  | touchEnded r id => cases hs; exact State.touchEnded_inv h r id
  | touchCancelled r => cases hs; exact State.cancelLoop_inv h r s.down
  | cancelAll r => cases hs; exact State.cancelAll_inv h r
  | expire r t =>
    simp only [step] at hs
    split at hs
    · cases hs
      exact State.runTask_inv h r ‹_›
    · cases hs
  | setConfig cfg => cases hs; exact ⟨h.sound, h.pending⟩
  | setRegions regions => cases hs; exact ⟨h.sound, h.pending⟩
  | setRelative relative => cases hs; exact ⟨h.sound, h.pending⟩
  | setExternalButtonHeld held => cases hs; exact ⟨h.sound, h.pending⟩

theorem run_inv {cfg : Config} {zoomSink : Bool} {as : List Act} {s : State}
    (h : run step (init cfg zoomSink) as = some s) : s.Inv :=
  trace_inv_all (fun _ s => s.Inv) (init_inv cfg zoomSink) (fun _ _ _ _ hi hs => step_inv hi hs) h

/-! ## Buttons and zoom are balanced -/

/-- The button is down after these calls, which press and release it in turn. -/
def HeldAfter (calls : List Call) (b : Button) : Prop :=
  run (alternate (Call.downs b) (Call.ups b)) false calls = some true

instance (calls : List Call) (b : Button) : Decidable (HeldAfter calls b) :=
  inferInstanceAs (Decidable (_ = _))

theorem heard_alternates {calls : List Call} {h : Heard} (hc : run hear ⟨none, none⟩ calls = some h) (b : Button) :
    run (alternate (Call.downs b) (Call.ups b)) false calls = some (h.holds b) := by
  have := run_map Heard.Apart (Heard.holds · b) (hear_alternates b) (s := ⟨none, none⟩) ⟨by simp, by simp⟩ hc
  simpa [Heard.holds] using this

theorem heard_apart {calls : List Call} {h : Heard} (hc : run hear ⟨none, none⟩ calls = some h) : h.Apart := by
  refine trace_inv_all (fun _ h => h.Apart) ⟨by simp, by simp⟩ (fun _ h c h' ha hs => ?_) hc
  exact (hear_alternates .left h c h' ha hs).1

/-- Of the buttons that are no wheel, the listener takes one at a time. -/
theorem one_held {calls p : List Call} {h : Heard} (hc : run hear ⟨none, none⟩ calls = some h) (hp : p <+: calls)
    {b c : Button} (hb : b.isWheel = false) (hc' : c.isWheel = false) (hbp : HeldAfter p b) (hcp : HeldAfter p c) :
    b = c := by
  obtain ⟨g, hg⟩ := run_prefix hp hc
  have held : ∀ d : Button, d.isWheel = false → HeldAfter p d → g.held = some d := by
    intro d hd hdp
    rw [HeldAfter, heard_alternates hg d, Option.some_inj, Heard.holds, decide_eq_true_eq] at hdp
    refine hdp.resolve_right fun hw => ?_
    rw [(heard_apart hg).2 d hw] at hd
    cases hd
  exact Option.some_inj.1 ((held b hb hbp).symm.trans (held c hc' hcp))

/-- Behind the press of a wheel button its release is next. -/
theorem wheel_released {calls pre post : List Call} {held : Option Button} {w : Button} (hw : w.isWheel = true)
    (hc : run hear ⟨none, none⟩ calls = some ⟨held, none⟩) (he : calls = pre ++ .mouse (.mouseDown w.mask) :: post) :
    ∃ post', post = .mouse (.mouseUp w.mask) :: post' := by
  rw [he] at hc
  obtain ⟨g, -, hc⟩ := run_append_some hc
  obtain ⟨g', hg', hc⟩ := run_cons_some hc
  have howed : g'.wheel = some w := by
    rcases hear_cases hg' with ⟨-, -, hn⟩ | ⟨w', h, -, -, rfl⟩ | ⟨w', h, -⟩ | ⟨b, h, hb, -⟩ | ⟨b, h, -⟩
    · simpa using (hn w).1
    · simp only [Call.mouse.injEq, MouseCall.mouseDown.injEq] at h
      rw [Button.mask_inj h]
    · cases h
    · simp only [Call.mouse.injEq, MouseCall.mouseDown.injEq] at h
      rw [← Button.mask_inj h, hw] at hb
      cases hb
    · cases h
  cases post with
  | nil =>
    cases hc
    cases howed
  | cons c post =>
    obtain ⟨g'', hg'', -⟩ := run_cons_some hc
    rcases hear_cases hg'' with ⟨-, hn, -⟩ | ⟨w', -, -, hn, -⟩ | ⟨w', rfl, hs, -⟩ | ⟨b, -, -, hn, -⟩ | ⟨b, -, hn, -⟩
    · simp [howed] at hn
    · simp [howed] at hn
    · rw [howed] at hs
      cases hs
      exact ⟨post, rfl⟩
    · simp [howed] at hn
    · simp [howed] at hn

/-- In every run of touches, timers and cancels each button goes down and up in
turn, of the buttons that are no wheel one is held at a time, a wheel button is
released as soon as it is pressed, a release waits only while a button is held,
zooms begin and end in turn, and a run that ends in `cancelAll` leaves nothing
held, open or posted. -/
theorem buttons_and_zoom_balance (cfg : Config) (zoomSink : Bool) (as : List Act) (s : State)
    (h : run step (init cfg zoomSink) as = some s) :
    (∀ b, run (alternate (Call.downs b) (Call.ups b)) false s.calls = some (decide (s.heldButton = some b))) ∧
    (∀ p, p <+: s.calls → ∀ b c, b.isWheel = false → c.isWheel = false → HeldAfter p b → HeldAfter p c → b = c) ∧
    (∀ pre (w : Button) post, s.calls = pre ++ .mouse (.mouseDown w.mask) :: post → w.isWheel = true →
      ∃ post', post = .mouse (.mouseUp w.mask) :: post') ∧
    (s.pendingRelease ≠ none → s.heldButton ≠ none) ∧ (∀ n, .release n ∈ s.posts → s.heldButton ≠ none) ∧
    run (alternate Call.opensZoom Call.closesZoom) false s.calls = some s.zoomOpen ∧
    (∀ r, as.getLast? = some (.cancelAll r) → s.AtRest) := by
  have hi := run_inv h
  refine ⟨fun b => ?_, fun p hp b c hb hc hbp hcp => one_held hi.sound.heard hp hb hc hbp hcp,
    fun pre w post he hw => wheel_released hw hi.sound.heard he, fun hne => (hi.pending hne).1, fun n hn => ?_,
    hi.sound.zoomed, fun r hr => ?_⟩
  · simpa [Heard.holds] using heard_alternates hi.sound.heard b
  · refine (hi.pending fun hp => ?_).1
    have hpos := List.count_pos_iff.2 hn
    rw [hi.sound.release n, hp] at hpos
    simp at hpos
  · obtain ⟨as', rfl⟩ := List.getLast?_eq_some_iff.1 hr
    obtain ⟨s', hs', hstep⟩ := run_append_some h
    obtain ⟨t, ht, hst⟩ := run_cons_some hstep
    cases hst
    cases ht
    exact (State.cancelAll_sound (run_inv hs') r).2

/-- Readings of a finger that has moved, of two that scroll by one click. -/
def scrolling : Reading where
  hasMoved := true
  still := false
  pinched := false
  scrolled := true
  apart := true
  vsteps := 1
  hsteps := 0
  inBorder := false
  flicked := false
  region := false
  fast := false

/-- Every flag off. -/
def plain : Config := ⟨false, false, false, false, false, false⟩

theorem buttons_and_zoom_balance_tap :
    ∃ s, run step (init plain true) [.touchBegan 0, .touchEnded scrolling 0] = some s ∧
      s.pendingRelease = some 0 ∧ s.heldButton ≠ none := by
  obtain ⟨s, hs⟩ : ∃ s, run step (init plain true) [.touchBegan 0, .touchEnded scrolling 0] = some s := ⟨_, rfl⟩
  have hp : s.pendingRelease = some 0 := by
    cases hs
    rfl
  refine ⟨s, hs, hp, ?_⟩
  apply (buttons_and_zoom_balance plain true _ s hs).2.2.2.1
  simp [hp]

/-- A tap, a finger back on the pad before its release, and a second one: the two
scroll with the tap's button held, and the wheel's press is a second button. -/
theorem wheel_pressed_while_held :
    ¬∀ (cfg : Config) (zoomSink : Bool) (as : List Act) (s : State), run step (init cfg zoomSink) as = some s →
      ∀ p, p <+: s.calls → ∀ b c, HeldAfter p b → HeldAfter p c → b = c := by
  intro h
  have := h plain false [.touchBegan 0, .touchEnded scrolling 0, .touchBegan 0, .touchBegan 1,
    .touchMoved scrolling 0, .touchMoved scrolling 1] _ rfl
    [.mouse (.mouseDown 1), .mouse (.mouseDown 16)] (by decide) .left .wheelDown (by decide) (by decide)
  cases this

end GestureRecognizer

end Vento.Control
