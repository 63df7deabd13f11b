import Vento.Control.MouseSink
/-!
# The pointer that the remote is told of

`control/CursorController.java`: several sources hold buttons, each in a mask of its
own, and the remote is told their union. A move may wait for the next display
frame and be merged with later ones; a press or a release never waits, and takes a
waiting move with it. What is the same as the last event is not sent again.

Where the cursor goes for a finger's travel is a parameter (`Desk`), with the window
on the desktop that it depends on, and so is Java's `==` on positions. Where the far
end owns the cursor there is no position, and an event carries the whole part of the
motion owed; whether there is any is an argument of each step.
-/

namespace Vento.Control

open Vento.Lib

namespace CursorController

/-- The desktop's arithmetic: where a travel takes the cursor under a view, the view
that follows it, and `==` on both coordinates. -/
structure Desk (Pos View Travel : Type) where
  travel : View → Pos → Travel → Pos
  centreOn : View → Pos → View
  same : Pos → Pos → Bool

structure Config where
  coalescePointerEvents : Bool
  dedupePointerEvents : Bool
deriving DecidableEq, Repr

inductive Event (Pos : Type) where
  | pointerEvent (p : Pos) (buttons : UInt32)
  | pointerEventRelative (buttons : UInt32)
deriving DecidableEq, Repr

variable {Pos View Travel : Type}

def Event.buttons : Event Pos → UInt32
  | pointerEvent _ buttons => buttons
  | pointerEventRelative buttons => buttons

def Event.position? : Event Pos → Option Pos
  | pointerEvent p _ => some p
  | pointerEventRelative _ => none

/-- The first of `sources` is the controller's own. `released` counts the times that
the last button held was let go of, which the listener hears of. -/
structure State (Pos View : Type) where
  view : View
  pos : Pos
  buttons : UInt32
  clicking : UInt32
  sources : List UInt32
  relative : Bool
  framePending : Bool
  sent : Pos
  sentButtons : UInt32
  everSent : Bool
  events : List (Event Pos)
  released : Nat

def init (view : View) (origin : Pos) : State Pos View where
  view
  pos := origin
  buttons := 0
  clicking := 0
  sources := [0]
  relative := false
  framePending := false
  sent := origin
  sentButtons := 0
  everSent := false
  events := []
  released := 0

/-- The masks of the buttons that click: all but the wheel. -/
def clickMask : UInt32 := 1 ||| 2 ||| 4 ||| 128 ||| 256

namespace State

def union (s : State Pos View) : State Pos View := { s with buttons := unionOf s.sources }

def clickEdge (s : State Pos View) : State Pos View :=
  let now := s.buttons &&& clickMask
  { s with clicking := now, released := if s.clicking ≠ 0 ∧ now = 0 then s.released + 1 else s.released }

def newButtonSource (s : State Pos View) : State Pos View := { s with sources := s.sources ++ [0] }

def setRelative (s : State Pos View) (relative : Bool) : State Pos View :=
  if s.relative = relative then s else { s with relative, everSent := false }

variable (D : Desk Pos View Travel) (cfg : Config) (owes : Bool)

def emitRelative (s : State Pos View) : State Pos View :=
  if !owes && s.everSent && s.buttons = s.sentButtons then s
  else
    { s with
      everSent := true
      sentButtons := s.buttons
      events := s.events ++ [.pointerEventRelative s.buttons] }

def emit (s : State Pos View) : State Pos View :=
  if s.relative then s.emitRelative owes
  else if cfg.dedupePointerEvents && s.everSent && D.same s.pos s.sent && s.buttons = s.sentButtons then s
  else
    { s with
      everSent := true
      sent := s.pos
      sentButtons := s.buttons
      events := s.events ++ [.pointerEvent s.pos s.buttons] }

def post (s : State Pos View) : State Pos View :=
  if !cfg.coalescePointerEvents then s.emit D cfg owes else { s with framePending := true }

def flush (s : State Pos View) : State Pos View := { s with framePending := false }.emit D cfg owes

/-- A display frame, which runs the callback if it was posted. -/
def frame (s : State Pos View) : State Pos View :=
  if s.framePending then { s with framePending := false }.emit D cfg owes else s

def mouseMove (s : State Pos View) (d : Travel) : State Pos View :=
  if s.relative then s.post D cfg owes
  else
    let s := { s with pos := D.travel s.view s.pos d }.post D cfg owes
    { s with view := D.centreOn s.view s.pos }

def press (s : State Pos View) (source : Nat) (mask : UInt32) : State Pos View :=
  (({ s with sources := s.sources.modify source (· ||| mask) }.union).flush D cfg owes).clickEdge

def unpress (s : State Pos View) (source : Nat) (mask : UInt32) : State Pos View :=
  (({ s with sources := s.sources.modify source (· &&& ~~~mask) }.union).flush D cfg owes).clickEdge

end State

inductive Act (View Travel : Type) where
  | newButtonSource
  | mouseDown (source : Nat) (mask : UInt32)
  | mouseUp (source : Nat) (mask : UInt32)
  | mouseMove (d : Travel)
  | frame
  | setView (view : View)
  | setRelative (relative : Bool)

/-- An act with the settings at the time, and with whether whole motion is owed. -/
structure Input (View Travel : Type) where
  cfg : Config
  owes : Bool
  act : Act View Travel

def step (D : Desk Pos View Travel) (s : State Pos View) (i : Input View Travel) : Option (State Pos View) :=
  match i.act with
  | .newButtonSource => some s.newButtonSource
  | .mouseDown source mask =>
    if source < s.sources.length then some (s.press D i.cfg i.owes source mask) else none
  | .mouseUp source mask =>
    if source < s.sources.length then some (s.unpress D i.cfg i.owes source mask) else none
  | .mouseMove d => some (s.mouseMove D i.cfg i.owes d)
  | .frame => some (s.frame D i.cfg i.owes)
  | .setView view => some { s with view }
  | .setRelative relative => some (s.setRelative relative)

/-! ## What the remote was told -/

/-- The mask of the last event, none held before the first. -/
def told (events : List (Event Pos)) : UInt32 := (events.getLast?.map Event.buttons).getD 0

/-- The events at which the mask changes. -/
def changes (events : List (Event Pos)) : List (Event Pos) :=
  (events.foldl (fun a e => (if e.buttons = a.2 then a.1 else a.1 ++ [e], e.buttons)) ([], 0)).1

/-- Where the last event put the cursor. -/
def place (events : List (Event Pos)) : Option Pos := (events.filterMap Event.position?).getLast?

theorem told_snoc (es : List (Event Pos)) (e : Event Pos) : told (es ++ [e]) = e.buttons := by
  simp [told]

theorem foldl_changes_snd (es : List (Event Pos)) :
    (es.foldl (fun a e => (if e.buttons = a.2 then a.1 else a.1 ++ [e], e.buttons))
      (([] : List (Event Pos)), (0 : UInt32))).2 = told es := by
  rcases List.eq_nil_or_concat es with rfl | ⟨es, e, rfl⟩
  · rfl
  · rw [List.concat_eq_append, told_snoc, List.foldl_append]
    rfl

theorem changes_snoc (es : List (Event Pos)) (e : Event Pos) :
    changes (es ++ [e]) = if e.buttons = told es then changes es else changes es ++ [e] := by
  rw [changes, List.foldl_append, ← foldl_changes_snd es]
  rfl

theorem place_snoc (es : List (Event Pos)) (p : Pos) (b : UInt32) : place (es ++ [.pointerEvent p b]) = some p := by
  simp [place, Event.position?]

/-- A new source holds nothing. -/
theorem unionOf_new (sources : List UInt32) : unionOf (sources ++ [0]) = unionOf sources := by
  rw [unionOf_snoc, UInt32.or_zero]

/-! ## What an event does -/

section

variable (D : Desk Pos View Travel) (cfg : Config) (owes : Bool) (s : State Pos View)

namespace State

/-- What `emit` sends, if it sends. -/
def event : Event Pos := if s.relative then .pointerEventRelative s.buttons else .pointerEvent s.pos s.buttons

theorem event_buttons : s.event.buttons = s.buttons := by
  unfold event
  split <;> rfl

/-- Either nothing is new to the remote, or the event goes out. -/
theorem emit_cases :
    (s.emit D cfg owes = s ∧ s.everSent = true ∧ s.sentButtons = s.buttons ∧
      (s.relative = false → cfg.dedupePointerEvents = true ∧ D.same s.pos s.sent = true)) ∨
    s.emit D cfg owes = { s with
      everSent := true
      sent := if s.relative then s.sent else s.pos
      sentButtons := s.buttons
      events := s.events ++ [s.event] } := by
  unfold emit event
  by_cases hr : s.relative = true
  · simp only [hr, if_true, emitRelative]
    split
    · rename_i h
      simp only [Bool.and_eq_true, decide_eq_true_eq] at h
      exact .inl ⟨rfl, h.1.2, h.2.symm, nofun⟩
    · exact .inr rfl
  · simp only [hr, if_false, Bool.false_eq_true]
    split
    · rename_i h
      simp only [Bool.and_eq_true, decide_eq_true_eq] at h
      exact .inl ⟨rfl, h.1.1.2, h.2.symm, fun _ => ⟨h.1.1.1, h.1.2⟩⟩
    · exact .inr rfl

/-- The remote was told the union of the sources' masks. -/
structure Inv : Prop where
  told : told s.events = s.buttons
  union : s.buttons = unionOf s.sources
  sent : s.everSent = true → s.sentButtons = s.buttons

/-- What the remote has been told stands in `sentButtons`, while the mask may be new. -/
def Told : Prop := s.everSent = true → s.sentButtons = CursorController.told s.events

variable {s}

/-- An event goes out if the mask is new, and the remote then knows it. -/
theorem emit_spec (h : s.Told) :
    CursorController.told (s.emit D cfg owes).events = s.buttons ∧ (s.emit D cfg owes).everSent = true ∧
    (s.emit D cfg owes).sentButtons = s.buttons ∧
    changes (s.emit D cfg owes).events =
      if s.buttons = CursorController.told s.events then changes s.events else changes s.events ++ [s.event] := by
  rcases s.emit_cases D cfg owes with ⟨he, hsent, hb, -⟩ | he
  · have ht := h hsent
    rw [he, if_pos (hb.symm.trans ht)]
    exact ⟨ht.symm.trans hb, hsent, hb, rfl⟩
  · rw [he]
    refine ⟨?_, rfl, rfl, ?_⟩
    · rw [told_snoc, event_buttons]
    · rw [changes_snoc, event_buttons]

/-- Nothing else changes. -/
theorem emit_frame (s : State Pos View) :
    (s.emit D cfg owes).view = s.view ∧ (s.emit D cfg owes).pos = s.pos ∧ (s.emit D cfg owes).buttons = s.buttons ∧
    (s.emit D cfg owes).sources = s.sources ∧ (s.emit D cfg owes).relative = s.relative ∧
    (s.emit D cfg owes).framePending = s.framePending := by
  rcases s.emit_cases D cfg owes with ⟨he, -⟩ | he
  · rw [he]
    exact ⟨rfl, rfl, rfl, rfl, rfl, rfl⟩
  · rw [he]
    exact ⟨rfl, rfl, rfl, rfl, rfl, rfl⟩

/-- The last position sent is where the cursor is, or counts as the same. -/
theorem emit_place (ha : s.relative = false) (hp : s.everSent = true → place s.events = some s.sent) :
    place (s.emit D cfg owes).events = some (s.emit D cfg owes).sent ∧
    ((s.emit D cfg owes).sent = s.pos ∨ D.same s.pos (s.emit D cfg owes).sent = true) ∧
    (cfg.dedupePointerEvents = false → (s.emit D cfg owes).sent = s.pos) := by
  rcases s.emit_cases D cfg owes with ⟨he, hsent, -, hsame⟩ | he
  · obtain ⟨hd, hsame⟩ := hsame ha
    rw [he]
    exact ⟨hp hsent, .inr hsame, fun hn => nomatch hd.symm.trans hn⟩
  · have hevent : s.event = .pointerEvent s.pos s.buttons := by simp [event, ha]
    rw [he, hevent, place_snoc, ha]
    exact ⟨rfl, .inl rfl, fun _ => rfl⟩

theorem emit_inv (h : s.Told) (hu : s.buttons = unionOf s.sources) : (s.emit D cfg owes).Inv := by
  obtain ⟨ht, -, hb, -⟩ := emit_spec D cfg owes h
  obtain ⟨-, -, hbuttons, hsources, -⟩ := s.emit_frame D cfg owes
  refine ⟨ht.trans hbuttons.symm, ?_, fun _ => hb.trans hbuttons.symm⟩
  rw [hbuttons, hsources]
  exact hu

theorem Inv.ready (h : s.Inv) : s.Told := fun hs => (h.sent hs).trans h.told.symm

theorem post_inv (h : s.Inv) : (s.post D cfg owes).Inv := by
  unfold post
  split
  · exact emit_inv D cfg owes h.ready h.union
  · exact ⟨h.told, h.union, h.sent⟩

theorem frame_inv (h : s.Inv) : (s.frame D cfg owes).Inv := by
  unfold frame
  split
  · exact emit_inv D cfg owes (s := { s with framePending := false }) h.ready h.union
  · exact h

theorem mouseMove_inv (h : s.Inv) (d : Travel) : (s.mouseMove D cfg owes d).Inv := by
  unfold mouseMove
  split
  · exact post_inv D cfg owes h
  · have := post_inv D cfg owes (s := { s with pos := D.travel s.view s.pos d }) ⟨h.told, h.union, h.sent⟩
    exact ⟨this.told, this.union, this.sent⟩

/-- A source's mask changes, and the remote is told at once. -/
theorem press_inv (h : s.Inv) (sources : List UInt32) :
    ((({ s with sources } : State Pos View).union).flush D cfg owes).clickEdge.Inv := by
  have := emit_inv D cfg owes (s := { ({ s with sources } : State Pos View).union with framePending := false }) h.ready rfl
  exact ⟨this.told, this.union, this.sent⟩

end State

end

theorem init_inv (view : View) (origin : Pos) : (init view origin).Inv where
  told := rfl
  union := rfl
  sent := nofun

theorem step_inv {D : Desk Pos View Travel} {s s' : State Pos View} {i : Input View Travel} (h : s.Inv)
    (hs : step D s i = some s') : s'.Inv := by
  obtain ⟨cfg, owes, act⟩ := i
  cases act with
  | newButtonSource =>
    cases hs
    exact ⟨h.told, h.union.trans (unionOf_new s.sources).symm, h.sent⟩
  | mouseDown source mask =>
    simp only [step] at hs
    split at hs
    · cases hs
      exact State.press_inv D cfg owes h _
    · cases hs
  | mouseUp source mask =>
    simp only [step] at hs
    split at hs
    · cases hs
      exact State.press_inv D cfg owes h _
    · cases hs
  | mouseMove d =>
    cases hs
    exact State.mouseMove_inv D cfg owes h d
  | frame =>
    cases hs
    exact State.frame_inv D cfg owes h
  | setView view =>
    cases hs
    exact ⟨h.told, h.union, h.sent⟩
  | setRelative relative =>
    cases hs
    unfold State.setRelative
    split
    · exact h
    · exact ⟨h.told, h.union, nofun⟩

/-! ## The stream that nothing is merged into or left out of -/

/-- Every move an event at once, and every event sent. -/
def plainly (i : Input View Travel) : Input View Travel := { i with cfg := ⟨false, false⟩ }

/-- `t` is `s` told of everything at once: they agree on the cursor, the buttons and
the changes of the mask, and where the last event of `s` put the cursor is where it
is, once nothing waits. -/
structure Tracks (D : Desk Pos View Travel) (s t : State Pos View) : Prop where
  inv : s.Inv
  inv' : t.Inv
  view : t.view = s.view
  pos : t.pos = s.pos
  sources : t.sources = s.sources
  absolute : s.relative = false ∧ t.relative = false
  changes : changes s.events = changes t.events
  idle : t.framePending = false
  everSent : t.everSent = (s.everSent || s.framePending)
  unsent : s.everSent = false → place s.events = none
  placed : s.everSent = true → place s.events = some s.sent
  settled : s.framePending = false → s.everSent = true → s.sent = s.pos ∨ D.same s.pos s.sent = true
  unsent' : t.everSent = false → place t.events = none
  placed' : t.everSent = true → place t.events = some t.sent
  settled' : t.everSent = true → t.sent = t.pos

/-- Two states that are about to send the same. -/
structure Aligned (s t : State Pos View) : Prop where
  ready : s.Told
  ready' : t.Told
  union : s.buttons = unionOf s.sources
  view : t.view = s.view
  pos : t.pos = s.pos
  sources : t.sources = s.sources
  buttons : t.buttons = s.buttons
  absolute : s.relative = false ∧ t.relative = false
  changes : changes s.events = changes t.events
  known : told s.events = told t.events
  idle : t.framePending = false
  placed : s.everSent = true → place s.events = some s.sent
  placed' : t.everSent = true → place t.events = some t.sent

variable {D : Desk Pos View Travel} {s t : State Pos View}

theorem Aligned.emit (h : Aligned s t) (cfg : Config) (owes : Bool) :
    Tracks D (s.emit D cfg owes) (t.emit D ⟨false, false⟩ owes) := by
  obtain ⟨-, hs, -, hc⟩ := State.emit_spec D cfg owes h.ready
  obtain ⟨-, ht, -, hc'⟩ := State.emit_spec D ⟨false, false⟩ owes h.ready'
  obtain ⟨hview, hpos, hbuttons, hsources, hrel, hfp⟩ := s.emit_frame D cfg owes
  obtain ⟨hview', hpos', hbuttons', hsources', hrel', hfp'⟩ := t.emit_frame D ⟨false, false⟩ owes
  obtain ⟨hp, hset, -⟩ := State.emit_place D cfg owes h.absolute.1 h.placed
  obtain ⟨hp', -, hset'⟩ := State.emit_place D ⟨false, false⟩ owes h.absolute.2 h.placed'
  have hevent : t.event = s.event := by
    simp only [State.event, h.absolute.1, h.absolute.2, h.pos, h.buttons]
  exact
    { inv := State.emit_inv D cfg owes h.ready h.union
      inv' := State.emit_inv D ⟨false, false⟩ owes h.ready' (by rw [h.buttons, h.sources]; exact h.union)
      view := by rw [hview, hview', h.view]
      pos := by rw [hpos, hpos', h.pos]
      sources := by rw [hsources, hsources', h.sources]
      absolute := ⟨hrel.trans h.absolute.1, hrel'.trans h.absolute.2⟩
      changes := by rw [hc, hc', h.changes, h.buttons, h.known, hevent]
      idle := hfp'.trans h.idle
      everSent := by rw [hs, ht]; rfl
      unsent := fun hn => nomatch hs.symm.trans hn
      placed := fun _ => hp
      settled := fun _ _ => by rw [hpos]; exact hset
      unsent' := fun hn => nomatch ht.symm.trans hn
      placed' := fun _ => hp'
      settled' := fun _ => by rw [hpos']; exact hset' rfl }

namespace Tracks

theorem buttons (h : Tracks D s t) : t.buttons = s.buttons := by
  rw [h.inv.union, h.inv'.union, h.sources]

theorem known (h : Tracks D s t) : told s.events = told t.events := by
  rw [h.inv.told, h.inv'.told, h.buttons]

theorem aligned_move (h : Tracks D s t) (pos : Pos) : Aligned ({ s with pos } : State Pos View) { t with pos } where
  ready := h.inv.ready
  ready' := h.inv'.ready
  union := h.inv.union
  view := h.view
  pos := rfl
  sources := h.sources
  buttons := h.buttons
  absolute := h.absolute
  changes := h.changes
  known := h.known
  idle := h.idle
  placed := h.placed
  placed' := h.placed'

theorem aligned_press (h : Tracks D s t) (sources : List UInt32) :
    Aligned ({ ({ s with sources } : State Pos View).union with framePending := false } : State Pos View)
      { ({ t with sources } : State Pos View).union with framePending := false } where
  ready := h.inv.ready
  ready' := h.inv'.ready
  union := rfl
  view := h.view
  pos := h.pos
  sources := rfl
  buttons := rfl
  absolute := h.absolute
  changes := h.changes
  known := h.known
  idle := rfl
  placed := h.placed
  placed' := h.placed'

theorem setView (h : Tracks D s t) {view view' : View} (hv : view' = view) :
    Tracks D ({ s with view } : State Pos View) { t with view := view' } :=
  { h with
    inv := ⟨h.inv.told, h.inv.union, h.inv.sent⟩
    inv' := ⟨h.inv'.told, h.inv'.union, h.inv'.sent⟩
    view := hv }

theorem clickEdge (h : Tracks D s t) : Tracks D s.clickEdge t.clickEdge :=
  { h with
    inv := ⟨h.inv.told, h.inv.union, h.inv.sent⟩
    inv' := ⟨h.inv'.told, h.inv'.union, h.inv'.sent⟩ }

/-- A waiting move goes out, which the other end of the comparison has sent. -/
theorem emit_left (h : Tracks D s t) (hw : s.framePending = true) (cfg : Config) (owes : Bool) :
    Tracks D (({ s with framePending := false } : State Pos View).emit D cfg owes) t := by
  have hr : ({ s with framePending := false } : State Pos View).Told := h.inv.ready
  obtain ⟨-, hs, -, hc⟩ := State.emit_spec D cfg owes hr
  obtain ⟨hview, hpos, -, hsources, hrel, -⟩ := ({ s with framePending := false } : State Pos View).emit_frame D cfg owes
  obtain ⟨hp, hset, -⟩ := State.emit_place D cfg owes (s := { s with framePending := false }) h.absolute.1 h.placed
  have ht : t.everSent = true := by rw [h.everSent, hw, Bool.or_true]
  exact
    { inv := State.emit_inv D cfg owes hr h.inv.union
      inv' := h.inv'
      view := h.view.trans hview.symm
      pos := h.pos.trans hpos.symm
      sources := h.sources.trans hsources.symm
      absolute := ⟨hrel.trans h.absolute.1, h.absolute.2⟩
      changes := by rw [hc, if_pos h.inv.told.symm]; exact h.changes
      idle := h.idle
      everSent := by rw [hs, ht]; rfl
      unsent := fun hn => nomatch hs.symm.trans hn
      placed := fun _ => hp
      settled := fun _ _ => by rw [hpos]; exact hset
      unsent' := h.unsent'
      placed' := h.placed'
      settled' := h.settled' }

/-- A move waits, which the other end of the comparison sends at once. -/
theorem emit_right (h : Tracks D s t) (pos : Pos) (owes : Bool) :
    Tracks D ({ s with pos, framePending := true } : State Pos View)
      (({ t with pos } : State Pos View).emit D ⟨false, false⟩ owes) := by
  have hr : ({ t with pos } : State Pos View).Told := h.inv'.ready
  obtain ⟨-, ht, -, hc⟩ := State.emit_spec D ⟨false, false⟩ owes hr
  obtain ⟨hview, hpos, -, hsources, hrel, hfp⟩ := ({ t with pos } : State Pos View).emit_frame D ⟨false, false⟩ owes
  obtain ⟨hp, -, hset⟩ := State.emit_place D ⟨false, false⟩ owes (s := { t with pos }) h.absolute.2 h.placed'
  exact
    { inv := ⟨h.inv.told, h.inv.union, h.inv.sent⟩
      inv' := State.emit_inv D ⟨false, false⟩ owes hr h.inv'.union
      view := hview.trans h.view
      pos := hpos
      sources := hsources.trans h.sources
      absolute := ⟨h.absolute.1, hrel.trans h.absolute.2⟩
      changes := by rw [hc, if_pos h.inv'.told.symm]; exact h.changes
      idle := hfp.trans h.idle
      everSent := by rw [ht, Bool.or_true]
      unsent := h.unsent
      placed := h.placed
      settled := nofun
      unsent' := fun hn => nomatch ht.symm.trans hn
      placed' := fun _ => hp
      settled' := fun _ => by rw [hpos]; exact hset rfl }

theorem mouseMove (h : Tracks D s t) (cfg : Config) (owes : Bool) (d : Travel) :
    Tracks D (s.mouseMove D cfg owes d) (t.mouseMove D ⟨false, false⟩ owes d) := by
  have hpos : D.travel t.view t.pos d = D.travel s.view s.pos d := by rw [h.view, h.pos]
  have hpost : Tracks D (({ s with pos := D.travel s.view s.pos d } : State Pos View).post D cfg owes)
      (({ t with pos := D.travel t.view t.pos d } : State Pos View).post D ⟨false, false⟩ owes) := by
    rw [hpos]
    cases hcfg : cfg.coalescePointerEvents with
    | true =>
      simp only [State.post, hcfg, Bool.not_true, Bool.false_eq_true, if_false]
      exact h.emit_right _ owes
    | false =>
      simp only [State.post, hcfg, Bool.not_false, if_true]
      exact (h.aligned_move _).emit cfg owes
  unfold State.mouseMove
  rw [if_neg (by simp [h.absolute.1]), if_neg (by simp [h.absolute.2])]
  apply hpost.setView
  rw [hpost.view, hpost.pos]

theorem press (h : Tracks D s t) (cfg : Config) (owes : Bool) (sources : List UInt32) :
    Tracks D (({ s with sources } : State Pos View).union.flush D cfg owes).clickEdge
      (({ t with sources } : State Pos View).union.flush D ⟨false, false⟩ owes).clickEdge :=
  ((h.aligned_press sources).emit cfg owes).clickEdge

theorem step {s' : State Pos View} {i : Input View Travel} (h : Tracks D s t) (hi : ∀ b, i.act ≠ .setRelative b)
    (hs : step D s i = some s') : ∃ t', CursorController.step D t (plainly i) = some t' ∧ Tracks D s' t' := by
  obtain ⟨cfg, owes, act⟩ := i
  cases act with
  | newButtonSource =>
    cases hs
    refine ⟨_, rfl, { h with inv := ?_, inv' := ?_, sources := ?_ }⟩
    · exact ⟨h.inv.told, h.inv.union.trans (unionOf_new s.sources).symm, h.inv.sent⟩
    · exact ⟨h.inv'.told, h.inv'.union.trans (unionOf_new t.sources).symm, h.inv'.sent⟩
    · simp only [State.newButtonSource, h.sources]
  | mouseDown source mask =>
    simp only [CursorController.step] at hs
    split at hs
    · rename_i hlt
      cases hs
      refine ⟨_, if_pos (h.sources ▸ hlt), ?_⟩
      unfold State.press
      rw [h.sources]
      exact h.press cfg owes _
    · cases hs
  | mouseUp source mask =>
    simp only [CursorController.step] at hs
    split at hs
    · rename_i hlt
      cases hs
      refine ⟨_, if_pos (h.sources ▸ hlt), ?_⟩
      unfold State.unpress
      rw [h.sources]
      exact h.press cfg owes _
    · cases hs
  | mouseMove d =>
    cases hs
    exact ⟨_, rfl, h.mouseMove cfg owes d⟩
  | frame =>
    cases hs
    refine ⟨t, ?_, ?_⟩
    · simp [CursorController.step, plainly, State.frame, h.idle]
    · unfold State.frame
      split
      · exact h.emit_left ‹_› cfg owes
      · exact h
  | setView view =>
    cases hs
    exact ⟨_, rfl, h.setView rfl⟩
  | setRelative relative => exact absurd rfl (hi relative)

end Tracks

theorem init_tracks (view : View) (origin : Pos) : Tracks D (init view origin) (init view origin) where
  inv := init_inv view origin
  inv' := init_inv view origin
  view := rfl
  pos := rfl
  sources := rfl
  absolute := ⟨rfl, rfl⟩
  changes := rfl
  idle := rfl
  everSent := rfl
  unsent _ := rfl
  placed := nofun
  settled := nofun
  unsent' _ := rfl
  placed' := nofun
  settled' := nofun

/-! ## Every interleaving -/

/-- An act sends one event at most, with the mask that it leaves. -/
def Sends (s s' : State Pos View) : Prop :=
  s'.events = s.events ∨ ∃ e, e.buttons = s'.buttons ∧ s'.events = s.events ++ [e]

theorem emit_sends (D : Desk Pos View Travel) (cfg : Config) (owes : Bool) (s : State Pos View) :
    Sends s (s.emit D cfg owes) := by
  rcases s.emit_cases D cfg owes with ⟨he, -⟩ | he
  · rw [he]
    exact .inl rfl
  · rw [he]
    exact .inr ⟨s.event, s.event_buttons, rfl⟩

theorem post_sends (D : Desk Pos View Travel) (cfg : Config) (owes : Bool) (s : State Pos View) :
    Sends s (s.post D cfg owes) := by
  unfold State.post
  split
  · exact emit_sends D cfg owes s
  · exact .inl rfl

theorem step_sends {s' : State Pos View} {i : Input View Travel} (hs : step D s i = some s') : Sends s s' := by
  obtain ⟨cfg, owes, act⟩ := i
  cases act with
  | newButtonSource => cases hs; exact .inl rfl
  | mouseDown source mask =>
    simp only [step] at hs
    split at hs
    · cases hs
      exact emit_sends D cfg owes { ({ s with sources := s.sources.modify source (· ||| mask) } : State Pos View).union with
        framePending := false }
    · cases hs
  | mouseUp source mask =>
    simp only [step] at hs
    split at hs
    · cases hs
      exact emit_sends D cfg owes { ({ s with sources := s.sources.modify source (· &&& ~~~mask) } : State Pos View).union with
        framePending := false }
    · cases hs
  | mouseMove d =>
    cases hs
    unfold State.mouseMove
    split
    · exact post_sends D cfg owes s
    · exact post_sends D cfg owes { s with pos := D.travel s.view s.pos d }
  | frame =>
    cases hs
    unfold State.frame
    split
    · exact emit_sends D cfg owes { s with framePending := false }
    · exact .inl rfl
  | setView view => cases hs; exact .inl rfl
  | setRelative relative =>
    cases hs
    unfold State.setRelative
    split <;> exact .inl rfl

def Act.isButton : Act View Travel → Bool
  | .mouseDown _ _ | .mouseUp _ _ => true
  | _ => false

/-- A press or a release leaves nothing waiting, and something sent. -/
theorem step_button {s' : State Pos View} {i : Input View Travel} (h : s.Inv) (hb : i.act.isButton = true)
    (hs : step D s i = some s') : s'.everSent = true ∧ s'.framePending = false := by
  have press : ∀ sources : List UInt32,
      (({ s with sources } : State Pos View).union.flush D i.cfg i.owes).clickEdge.everSent = true ∧
      (({ s with sources } : State Pos View).union.flush D i.cfg i.owes).clickEdge.framePending = false := by
    intro sources
    have hr : ({ ({ s with sources } : State Pos View).union with framePending := false } : State Pos View).Told := h.ready
    exact ⟨(State.emit_spec D i.cfg i.owes hr).2.1, (State.emit_frame D i.cfg i.owes _).2.2.2.2.2⟩
  obtain ⟨cfg, owes, act⟩ := i
  cases act with
  | mouseDown source mask =>
    simp only [step] at hs
    split at hs
    · cases hs
      exact press _
    · cases hs
  | mouseUp source mask =>
    simp only [step] at hs
    split at hs
    · cases hs
      exact press _
    · cases hs
  | _ => cases hb

theorem run_inv {view : View} {origin : Pos} {as : List (Input View Travel)}
    (h : run (step D) (init view origin) as = some s) : s.Inv :=
  trace_inv_all (fun _ s => s.Inv) (init_inv view origin) (fun _ _ _ _ hi hs => step_inv hi hs) h

/-- In every run the mask that the remote was last told is the union of what the
sources hold, at once after a press or a release; an event without a button finds no
source that holds it; and, where this end owns the cursor, the mask changes at the
same positions as in the stream in which every act is an event, with the same last
position once nothing waits. -/
theorem coalesced_stream (D : Desk Pos View Travel) (view : View) (origin : Pos) (as : List (Input View Travel))
    (s : State Pos View) (h : run (step D) (init view origin) as = some s) :
    told s.events = unionOf s.sources ∧
    (∀ i, as.getLast? = some i → i.act.isButton = true → s.everSent = true ∧ s.framePending = false) ∧
    (∀ i s', step D s i = some s' → ∃ new, s'.events = s.events ++ new ∧
      ∀ e ∈ new, ∀ b, e.buttons &&& b = 0 → ∀ m ∈ s'.sources, m &&& b = 0) ∧
    ((∀ i ∈ as, ∀ b, i.act ≠ .setRelative b) →
      ∃ t, run (step D) (init view origin) (as.map plainly) = some t ∧ changes s.events = changes t.events ∧
        (s.framePending = false → place s.events = place t.events ∨
          ∃ p q, place s.events = some p ∧ place t.events = some q ∧ D.same q p = true)) := by
  have hi := run_inv h
  refine ⟨hi.told.trans hi.union, fun i hlast hb => ?_, fun i s' hs => ?_, fun habs => ?_⟩
  · obtain ⟨as', rfl⟩ := List.getLast?_eq_some_iff.1 hlast
    obtain ⟨u, hu, hstep⟩ := run_append_some h
    obtain ⟨v, hv, hnil⟩ := run_cons_some hstep
    cases hnil
    exact step_button (run_inv hu) hb hv
  · have hunion := (step_inv hi hs).union
    rcases step_sends hs with he | ⟨e, hbuttons, he⟩
    · exact ⟨[], by rw [he, List.append_nil], nofun⟩
    · refine ⟨[e], he, fun e' he' b hb => ?_⟩
      rw [List.mem_singleton.1 he', hbuttons, hunion] at hb
      exact (unionOf_and_eq_zero s'.sources b).1 hb
  · obtain ⟨t, ht, htr⟩ := run_simulate (Tracks D) (fun i => ∀ b, i.act ≠ .setRelative b) plainly
      (fun _ _ _ _ hP hS hs => hS.step hP hs) habs (init_tracks view origin) h
    refine ⟨t, ht, htr.changes, fun hw => ?_⟩
    cases hs : s.everSent with
    | false =>
      have hn : t.everSent = false := by rw [htr.everSent, hs, hw]; rfl
      exact .inl ((htr.unsent hs).trans (htr.unsent' hn).symm)
    | true =>
      have hy : t.everSent = true := by rw [htr.everSent, hs]; rfl
      rw [htr.placed hs, htr.placed' hy, htr.settled' hy, htr.pos]
      rcases htr.settled hw hs with heq | hsame
      · exact .inl (congrArg some heq)
      · exact .inr ⟨s.sent, s.pos, rfl, rfl, hsame⟩

/-- A line of pixels under a view that never moves. -/
def line : Desk Int Unit Int := ⟨fun _ p d => p + d, fun v _ => v, fun p q => p = q⟩

/-- Two moves that are merged, a press by two sources of which one lets go, and a move
that waits for the frame. -/
def drag : List (Input Unit Int) :=
  [.newButtonSource, .mouseMove 2, .mouseMove 3, .mouseDown 0 1, .mouseDown 1 1, .mouseUp 0 1, .mouseMove 4, .frame].map
    fun act => ⟨⟨true, true⟩, false, act⟩

theorem coalesced_stream_drag :
    ∃ s t, run (step line) (init () 0) drag = some s ∧ run (step line) (init () 0) (drag.map plainly) = some t ∧
      s.events.length = 2 ∧ t.events.length = 6 ∧ told s.events = unionOf s.sources ∧
      changes s.events = changes t.events := by
  obtain ⟨s, hs⟩ : ∃ s, run (step line) (init () 0) drag = some s := ⟨_, rfl⟩
  have hall := coalesced_stream line () 0 drag s hs
  obtain ⟨t, ht, hc, -⟩ := hall.2.2.2 (by simp [drag])
  refine ⟨s, t, hs, ht, ?_, ?_, hall.1, hc⟩
  · have : (run (step line) (init () 0) drag).map (·.events.length) = some 2 := by decide
    simpa [hs] using this
  · have : (run (step line) (init () 0) (drag.map plainly)).map (·.events.length) = some 6 := by decide
    simpa [ht] using this

end CursorController

end Vento.Control
