import Mathlib.Data.List.Induction
import Vento.Control.TouchRouter
/-!
# The mouse buttons on the screen

`control/input/MouseOverlay.java`: three buttons that fingers hold, a strip whose
place under a finger is the rate of a wheel, and a corner that hides it all. Several
fingers may be on one button, and the last one out releases it.

Which part a point is in, and the rate that a place on the strip comes to, are
arguments of each touch; of the rate only its sign is kept, and whether a tick of the
timer is due a click is an argument of the tick. A finger may be of any id: what is
proved needs no order in the touches.
-/

namespace Vento.Control

open Vento.Lib

namespace MouseOverlay

open TouchRouter (maxPointers swapRemove swapRemove_perm)

inductive Part where
  | left
  | middle
  | right
  | dismiss
  | scroll
deriving DecidableEq, Repr

/-- The button this part presses. -/
def Part.button : Part → Option Button
  | left => some .left
  | middle => some .middle
  | right => some .right
  | dismiss | scroll => none

def Part.mask (p : Part) : UInt32 := (p.button.map Button.mask).getD 0

/-- The sign of the wheel's rate; negative is up. -/
inductive Rate where
  | up
  | zero
  | down
deriving DecidableEq, Repr

/-- The overlay, the posts of its timer and the calls of its sink so far. -/
structure State where
  visible : Bool
  pointers : List (Int × Part)
  heldMask : UInt32
  scrollPtr : Int
  rate : Rate
  ticking : Bool
  posts : Nat
  calls : List MouseCall
deriving DecidableEq, Repr

def init : State where
  visible := false
  pointers := []
  heldMask := 0
  scrollPtr := -1
  rate := .zero
  ticking := false
  posts := 0
  calls := []

namespace State

/-! ## The wheel strip -/

def click (s : State) (r : Rate) : State :=
  { s with calls := s.calls ++ MouseCall.click (if r = .up then .wheelUp else .wheelDown) }

def schedule (s : State) : State := if s.ticking then s else { s with ticking := true, posts := s.posts + 1 }

/-- Scrolling stops; the finger stays. -/
def pauseScrolling (s : State) : State :=
  let s := { s with rate := .zero }
  if s.ticking then { s with ticking := false, posts := 0 } else s

/-- The finger has gone. -/
def stopScrolling (s : State) : State := { s with scrollPtr := -1 }.pauseScrolling

def setRate (s : State) (r : Rate) : State :=
  if s.rate = .zero ∧ r ≠ .zero then
    -- the first click at once, the repeats from the timer
    { s.click r with rate := r }.schedule
  else if r = .zero then s.pauseScrolling
  else { s with rate := r }

/-- `none` where there is no strip. -/
def drag (s : State) (r : Option Rate) : State :=
  match r with
  | none => s
  | some r => s.setRate r

/-- What the timer runs. -/
def wheelTick (s : State) (due : Bool) : State :=
  let s := { s with ticking := false }
  if s.rate = .zero then s
  else
    let s := if due then s.click s.rate else s
    s.schedule

/-! ## Buttons -/

def press (s : State) (b : Button) : State :=
  if s.heldMask &&& b.mask = 0 then
    { s with heldMask := s.heldMask ||| b.mask, calls := s.calls ++ [.mouseDown b.mask] }
  else s

def release (s : State) (b : Button) : State :=
  -- another finger may be on the same button
  if s.pointers.any fun p => p.2.button = some b then s
  else if s.heldMask &&& b.mask ≠ 0 then
    { s with heldMask := s.heldMask &&& ~~~b.mask, calls := s.calls ++ [.mouseUp b.mask] }
  else s

def releaseAll (s : State) : State :=
  let s := { s with pointers := [] }.stopScrolling
  if s.heldMask ≠ 0 then { s with heldMask := 0, calls := s.calls ++ [.mouseUp s.heldMask] } else s

def setVisible (s : State) (v : Bool) : State :=
  if s.visible = v then s
  else
    let s := { s with visible := v }
    if !s.visible then s.releaseAll else s

def toggle (s : State) : State := s.setVisible !s.visible

/-! ## Touches -/

def indexOf (s : State) (id : Int) : Option Nat := s.pointers.findIdx? fun p => p.1 = id

/-- The pointer is taken if it lands on a part. -/
def claimTouch (s : State) (id : Int) (hit : Option Part) (r : Option Rate) : State × Bool :=
  if !s.visible || s.pointers.length = maxPointers then (s, false)
  else
    match hit with
    | none => (s, false)
    | some part =>
      let s := { s with pointers := s.pointers ++ [(id, part)] }
      match part.button with
      | some b => (s.press b, true)
      | none =>
        if part = .scroll ∧ s.scrollPtr < 0 then ({ s with scrollPtr := id }.drag r, true) else (s, true)

def claimMoved (s : State) (id : Int) (r : Option Rate) : State :=
  match (s.indexOf id).bind (s.pointers[·]?) with
  | none => s
  -- a finger that slides off a button keeps it down
  | some p => if p.2 = .scroll ∧ id = s.scrollPtr then s.drag r else s

/-- `inside` says that the finger is on the corner still. -/
def claimEnded (s : State) (id : Int) (inside : Bool) : State :=
  match s.indexOf id with
  | none => s
  | some i =>
    match s.pointers[i]? with
    | none => s
    | some p =>
      let s := { s with pointers := swapRemove s.pointers i }
      match p.2.button with
      | some b => s.release b
      | none =>
        if p.2 = .scroll ∧ id = s.scrollPtr then s.stopScrolling
        else if p.2 = .dismiss ∧ inside then s.setVisible false
        else s

def claimCancelled (s : State) : State := s.releaseAll

end State

inductive Act where
  | claimTouch (id : Int) (hit : Option Part) (r : Option Rate)
  | claimMoved (id : Int) (r : Option Rate)
  | claimEnded (id : Int) (inside : Bool)
  | claimCancelled
  | setVisible (v : Bool)
  | toggle
  | wheelTick (due : Bool)
deriving DecidableEq, Repr

def step (s : State) : Act → Option State
  | .claimTouch id hit r => some (s.claimTouch id hit r).1
  | .claimMoved id r => some (s.claimMoved id r)
  | .claimEnded id inside => some (s.claimEnded id inside)
  | .claimCancelled => some s.claimCancelled
  | .setVisible v => some (s.setVisible v)
  | .toggle => some s.toggle
  -- a post runs once
  | .wheelTick due => if 0 < s.posts then some ({ s with posts := s.posts - 1 }.wheelTick due) else none

/-! ## Balance -/

/-- A finger of these is on the button. -/
def has (ps : List (Int × Part)) (b : Button) : Bool := ps.any fun p => p.2.button = some b

def masks (ps : List (Int × Part)) : List UInt32 := ps.map fun p => p.2.mask

/-- The mask of the buttons that a finger is on. -/
def maskOf (on : Button → Bool) : UInt32 :=
  (if on .left then 1 else 0) ||| (if on .middle then 2 else 0) ||| (if on .right then 4 else 0)

theorem has_snoc (ps : List (Int × Part)) (p : Int × Part) (b : Button) :
    has (ps ++ [p]) b = (has ps b || decide (p.2.button = some b)) := by
  simp [has]

theorem unionOf_masks (ps : List (Int × Part)) : unionOf (masks ps) = maskOf (has ps) := by
  induction ps using List.reverseRecOn with
  | nil => rfl
  | append_singleton ps p ih =>
    rw [masks, List.map_append, List.map_singleton, unionOf_snoc, ← masks, ih]
    simp only [maskOf, has_snoc]
    generalize has ps .left = l
    generalize has ps .middle = m
    generalize has ps .right = r
    generalize p.2 = part
    cases part <;> revert l m r <;> decide

/-- The mask depends on which buttons have a finger on them. -/
theorem unionOf_masks_congr {ps qs : List (Int × Part)} (h : ∀ b, has ps b = has qs b) :
    unionOf (masks ps) = unionOf (masks qs) := by
  rw [unionOf_masks, unionOf_masks, maskOf, maskOf, h, h, h]

theorem isIn_unionOf_masks (ps : List (Int × Part)) (b : Button) : b.isIn (unionOf (masks ps)) = has ps b := by
  have hpart : ∀ part : Part, b.isIn part.mask = decide (part.button = some b) := by
    intro part
    cases part <;> cases b <;> decide
  rw [Bool.eq_iff_iff, Button.isIn, decide_eq_true_iff, ne_eq, unionOf_and_eq_zero]
  simp only [masks, List.forall_mem_map, has, List.any_eq_true, decide_eq_true_eq, not_forall]
  constructor
  · rintro ⟨p, hp, hne⟩
    exact ⟨p, hp, by simpa [Button.isIn, hne] using hpart p.2⟩
  · rintro ⟨p, hp, hb⟩
    exact ⟨p, hp, by simpa [Button.isIn, hb] using hpart p.2⟩

/-- The held mask is that of the buttons under the pointers, and the sink has heard
of it. -/
structure Held (pointers : List (Int × Part)) (heldMask : UInt32) (calls : List MouseCall) : Prop where
  union : heldMask = unionOf (masks pointers)
  heard : ∀ b, run (alternate (MouseCall.downs b) (MouseCall.ups b)) false calls = some (b.isIn heldMask)

namespace Held

variable {ps qs : List (Int × Part)} {held : UInt32} {calls : List MouseCall}

theorem isIn_eq (h : Held ps held calls) (b : Button) : b.isIn held = has ps b := by
  rw [h.union, isIn_unionOf_masks]

theorem congr (h : Held ps held calls) (hq : ∀ b, has qs b = has ps b) : Held qs held calls :=
  ⟨h.union.trans (unionOf_masks_congr fun b => (hq b).symm), h.heard⟩

/-- No part presses the wheel, so a click of it is heard as one. -/
theorem click {w : Button} (h : Held ps held calls) (hw : w.isWheel = true) :
    Held ps held (calls ++ MouseCall.click w) where
  union := h.union
  heard b := by
    have hout : w.isIn held = false := by
      rw [h.isIn_eq]
      have : ∀ part : Part, part.button ≠ some w := by
        intro part
        cases part <;> cases w <;> simp_all [Part.button, Button.isWheel]
      simp [has, this]
    rw [run_append, h.heard]
    by_cases hb : b = w
    · subst hb
      simp [hout, MouseCall.click, run_cons, alternate, MouseCall.downs, MouseCall.ups, Button.isIn_mask]
    · simp [MouseCall.click, run_cons, alternate, MouseCall.downs, MouseCall.ups, Button.isIn_mask, hb]

theorem press {part : Part} {b : Button} (h : Held ps held calls) (hp : part.button = some b) (id : Int) :
    (held &&& b.mask = 0 → Held (ps ++ [(id, part)]) (held ||| b.mask) (calls ++ [.mouseDown b.mask])) ∧
    (held &&& b.mask ≠ 0 → Held (ps ++ [(id, part)]) held calls) := by
  constructor
  · intro hz
    refine ⟨?_, fun c => ?_⟩
    · have hm : part.mask = b.mask := by simp [Part.mask, hp]
      rw [masks, List.map_append, List.map_singleton, unionOf_snoc, ← masks, ← h.union, hm]
    · have hout : b.isIn held = false := by simp [Button.isIn, hz]
      rw [run_append, h.heard, Button.isIn_or, Button.isIn_mask]
      by_cases hc : c = b
      · subst hc
        simp [hout, run_cons, alternate, MouseCall.downs, Button.isIn_mask]
      · simp [run_cons, alternate, MouseCall.downs, MouseCall.ups, Button.isIn_mask, hc]
  · intro hnz
    have hin : has ps b = true := by
      rw [← h.isIn_eq]
      simpa [Button.isIn] using hnz
    refine h.congr fun c => ?_
    rw [has_snoc]
    by_cases hc : c = b
    · subst hc
      simp [hin]
    · simp [hp, Ne.symm hc]

/-- The last finger of a button goes. -/
theorem release {p : Int × Part} {b : Button} (h : Held ps held calls) (hb : p.2.button = some b)
    (hq : ∀ c, has ps c = (has qs c || decide (p.2.button = some c))) (hn : has qs b = false) :
    Held qs (held &&& ~~~b.mask) (calls ++ [.mouseUp b.mask]) := by
  have hin : b.isIn held = true := by
    rw [h.isIn_eq, hq]
    simp [hb]
  refine ⟨?_, fun c => ?_⟩
  · have hu : held = unionOf (masks qs) ||| b.mask := by
      have hm : p.2.mask = b.mask := by simp [Part.mask, hb]
      rw [h.union, ← hm, ← unionOf_snoc]
      have hsame : ∀ c, has ps c = has (qs ++ [p]) c := fun c => by rw [hq, has_snoc]
      rw [unionOf_masks_congr hsame, masks, masks, List.map_append, List.map_singleton]
    have hz : unionOf (masks qs) &&& b.mask = 0 := by
      have := isIn_unionOf_masks qs b
      rw [hn] at this
      simpa [Button.isIn] using this
    rw [hu, or_and_not_mask hz]
  · rw [run_append, h.heard, Button.isIn_and_not]
    by_cases hc : c = b
    · subst hc
      simp [hin, run_cons, alternate, MouseCall.downs, MouseCall.ups, Button.isIn_mask]
    · simp [run_cons, alternate, MouseCall.downs, MouseCall.ups, Button.isIn_mask, hc]

/-- Everything goes at once. -/
theorem releaseAll (h : Held ps held calls) :
    (held ≠ 0 → Held [] 0 (calls ++ [.mouseUp held])) ∧ (held = 0 → Held [] held calls) := by
  constructor
  · intro _
    refine ⟨rfl, fun b => ?_⟩
    rw [run_append, h.heard, Button.isIn_zero]
    cases hb : b.isIn held <;> simp [run_cons, alternate, MouseCall.downs, MouseCall.ups, hb]
  · intro hz
    refine ⟨hz, h.heard⟩

end Held

/-- The timer is posted once, while the wheel turns. -/
structure Wheel (rate : Rate) (ticking : Bool) (posts : Nat) : Prop where
  turning : ticking = decide (rate ≠ .zero)
  posted : posts = if ticking then 1 else 0

structure Inv (s : State) : Prop where
  held : Held s.pointers s.heldMask s.calls
  wheel : Wheel s.rate s.ticking s.posts
  hidden : s.visible = false → s.pointers = [] ∧ s.rate = .zero ∧ s.scrollPtr = -1

namespace State

variable {s : State}

theorem click_held (h : Held s.pointers s.heldMask s.calls) (r : Rate) :
    Held (s.click r).pointers (s.click r).heldMask (s.click r).calls := by
  apply h.click
  split <;> rfl

/-- The wheel stops, and nothing is posted. -/
theorem pauseScrolling_spec (h : Wheel s.rate s.ticking s.posts) :
    s.pauseScrolling = { s with rate := .zero, ticking := false, posts := 0 } := by
  unfold pauseScrolling
  dsimp only
  split
  · rfl
  · rename_i ht
    have ht : s.ticking = false := by simpa using ht
    have hp := h.posted
    rw [ht] at hp
    rw [← ht, show (0 : Nat) = s.posts from hp.symm]

theorem stopScrolling_spec (h : Wheel s.rate s.ticking s.posts) :
    s.stopScrolling = { s with scrollPtr := -1, rate := .zero, ticking := false, posts := 0 } :=
  pauseScrolling_spec (s := { s with scrollPtr := -1 }) h

theorem wheel_stopped : Wheel .zero false 0 := ⟨rfl, rfl⟩

/-- A rate is set: the pointers and the mask stay, and the timer follows the rate. -/
theorem setRate_spec (hh : Held s.pointers s.heldMask s.calls) (hw : Wheel s.rate s.ticking s.posts) (r : Rate) :
    Held (s.setRate r).pointers (s.setRate r).heldMask (s.setRate r).calls ∧
    Wheel (s.setRate r).rate (s.setRate r).ticking (s.setRate r).posts ∧
    (s.setRate r).pointers = s.pointers ∧ (s.setRate r).visible = s.visible := by
  unfold setRate
  split
  · rename_i hr
    have ht : s.ticking = false := by simpa [hr.1] using hw.turning
    have hp : s.posts = 0 := by simpa [ht] using hw.posted
    have hs : ({ s.click r with rate := r } : State).schedule =
        { s.click r with rate := r, ticking := true, posts := s.posts + 1 } := if_neg (by simp [click, ht])
    rw [hs]
    refine ⟨click_held hh r, ⟨by simp [hr.2], by simp [hp]⟩, rfl, rfl⟩
  · rename_i hr
    split
    · rw [pauseScrolling_spec hw]
      exact ⟨hh, wheel_stopped, rfl, rfl⟩
    · rename_i hr'
      refine ⟨hh, ⟨?_, hw.posted⟩, rfl, rfl⟩
      have : s.rate ≠ .zero := fun hz => hr ⟨hz, hr'⟩
      simpa [this, hr'] using hw.turning

theorem drag_inv (h : Inv s) (r : Option Rate) (hv : s.visible = true) : Inv (s.drag r) := by
  cases r with
  | none => exact h
  | some r =>
    obtain ⟨hh, hw, -, hvis⟩ := setRate_spec h.held h.wheel r
    exact ⟨hh, hw, fun hn => nomatch (hvis.trans hv).symm.trans hn⟩

/-- Nothing is held, claimed or ticking. -/
structure AtRest (s : State) : Prop where
  pointers : s.pointers = []
  heldMask : s.heldMask = 0
  scrollPtr : s.scrollPtr = -1
  rate : s.rate = .zero
  posts : s.posts = 0

theorem releaseAll_spec (hh : Held s.pointers s.heldMask s.calls) (hw : Wheel s.rate s.ticking s.posts) :
    Inv s.releaseAll ∧ s.releaseAll.AtRest ∧ s.releaseAll.visible = s.visible := by
  unfold releaseAll
  rw [stopScrolling_spec (s := { s with pointers := [] }) hw]
  dsimp only
  split
  · rename_i hne
    exact ⟨⟨hh.releaseAll.1 hne, wheel_stopped, fun _ => ⟨rfl, rfl, rfl⟩⟩, ⟨rfl, rfl, rfl, rfl, rfl⟩, rfl⟩
  · rename_i hz
    have hz : s.heldMask = 0 := by simpa using hz
    exact ⟨⟨hh.releaseAll.2 hz, wheel_stopped, fun _ => ⟨rfl, rfl, rfl⟩⟩, ⟨rfl, hz, rfl, rfl, rfl⟩, rfl⟩

theorem setVisible_inv (h : Inv s) (v : Bool) : Inv (s.setVisible v) := by
  unfold setVisible
  split
  · exact h
  dsimp only
  split
  · exact (releaseAll_spec (s := { s with visible := v }) h.held h.wheel).1
  · rename_i hv
    exact ⟨h.held, h.wheel, fun hn => absurd hn (by simpa using hv)⟩

theorem claimTouch_inv (h : Inv s) (id : Int) (hit : Option Part) (r : Option Rate) : Inv (s.claimTouch id hit r).1 := by
  unfold claimTouch
  split
  · exact h
  rename_i hv
  have hv : s.visible = true := by
    by_contra hn
    simp [hn] at hv
  split
  · exact h
  rename_i part
  dsimp only
  split
  · rename_i b hb
    obtain ⟨hnew, hold⟩ := h.held.press hb id
    unfold press
    split
    · exact ⟨hnew ‹_›, h.wheel, fun hn => nomatch hv.symm.trans hn⟩
    · exact ⟨hold ‹_›, h.wheel, fun hn => nomatch hv.symm.trans hn⟩
  · rename_i hb
    have hi : Inv { s with pointers := s.pointers ++ [(id, part)] } := by
      refine ⟨h.held.congr fun c => ?_, h.wheel, fun hn => nomatch hv.symm.trans hn⟩
      rw [has_snoc, hb]
      simp
    split
    · exact drag_inv (s := { s with pointers := s.pointers ++ [(id, part)], scrollPtr := id })
        ⟨hi.held, hi.wheel, fun hn => nomatch hv.symm.trans hn⟩ r hv
    · exact hi

theorem claimMoved_inv (h : Inv s) (id : Int) (r : Option Rate) : Inv (s.claimMoved id r) := by
  unfold claimMoved
  split
  · exact h
  rename_i p hp
  split
  · refine drag_inv h r ?_
    -- a pointer on the overlay is on a visible one
    by_contra hn
    have := (h.hidden (by simpa using hn)).1
    simp [this] at hp
  · exact h

/-- What was under the pointer that goes is what its part presses. -/
theorem has_swapRemove {ps : List (Int × Part)} {i : Nat} {p : Int × Part} (hp : ps[i]? = some p) (b : Button) :
    has ps b = (has (swapRemove ps i) b || decide (p.2.button = some b)) := by
  obtain ⟨hi, rfl⟩ := List.getElem?_eq_some_iff.1 hp
  have hperm : ps.Perm (ps[i] :: swapRemove ps i) :=
    (List.getElem_cons_eraseIdx_perm hi).symm.trans ((swapRemove_perm hi).symm.cons _)
  rw [has, hperm.any_eq, List.any_cons, Bool.or_comm]
  rfl

theorem claimEnded_inv (h : Inv s) (id : Int) (inside : Bool) : Inv (s.claimEnded id inside) := by
  unfold claimEnded
  split
  · exact h
  split
  · exact h
  rename_i i _ _ p hp
  have hq := has_swapRemove hp
  have hhidden : s.visible = false → swapRemove s.pointers i = [] ∧ s.rate = .zero ∧ s.scrollPtr = -1 := by
    intro hn
    rw [(h.hidden hn).1]
    exact ⟨rfl, (h.hidden hn).2⟩
  dsimp only
  split
  · rename_i b hb
    unfold release
    split
    · rename_i hany
      refine ⟨h.held.congr fun c => ?_, h.wheel, hhidden⟩
      rw [hq, hb]
      by_cases hc : c = b
      · subst hc
        simp [show has (swapRemove s.pointers i) c = true from hany]
      · simp [Ne.symm hc]
    · rename_i hany
      have hn : has (swapRemove s.pointers i) b = false := eq_false_of_ne_true hany
      have hin : b.isIn s.heldMask = true := by
        rw [h.held.isIn_eq, hq, hb]
        simp
      rw [if_pos (by simpa [Button.isIn] using hin)]
      exact ⟨h.held.release hb hq hn, h.wheel, hhidden⟩
  · rename_i hb
    have hi : Inv { s with pointers := swapRemove s.pointers i } := by
      refine ⟨h.held.congr fun c => ?_, h.wheel, hhidden⟩
      rw [hq, hb]
      simp
    split
    · rw [stopScrolling_spec (s := { s with pointers := swapRemove s.pointers i }) h.wheel]
      exact ⟨hi.held, wheel_stopped, fun hn => ⟨(hhidden hn).1, rfl, rfl⟩⟩
    split
    · exact setVisible_inv hi false
    · exact hi

theorem wheelTick_inv (h : Inv s) (due : Bool) (hp : 0 < s.posts) : Inv ({ s with posts := s.posts - 1 }.wheelTick due) := by
  have ht : s.ticking = true := by
    by_contra hn
    rw [h.wheel.posted, if_neg hn] at hp
    exact Nat.lt_irrefl 0 hp
  have hone : s.posts = 1 := by rw [h.wheel.posted, ht]; rfl
  have hr : s.rate ≠ .zero := by simpa [ht] using h.wheel.turning
  unfold wheelTick
  dsimp only
  rw [if_neg hr]
  have hw : Wheel s.rate true (s.posts - 1 + 1) := ⟨by simp [hr], by simp [hone]⟩
  have hhidden : s.visible = false → s.pointers = [] ∧ s.rate = .zero ∧ s.scrollPtr = -1 := h.hidden
  cases due with
  | true => exact ⟨click_held (s := { s with posts := s.posts - 1, ticking := false }) h.held s.rate, hw, hhidden⟩
  | false => exact ⟨h.held, hw, hhidden⟩

end State

theorem init_inv : Inv init := ⟨⟨rfl, fun b => by rw [show init.heldMask = 0 from rfl, Button.isIn_zero]; rfl⟩,
  State.wheel_stopped, fun _ => ⟨rfl, rfl, rfl⟩⟩

theorem step_inv {s s' : State} {a : Act} (h : Inv s) (hs : step s a = some s') : Inv s' := by
  cases a with
  | claimTouch id hit r => cases hs; exact State.claimTouch_inv h id hit r
  | claimMoved id r => cases hs; exact State.claimMoved_inv h id r
  | claimEnded id inside => cases hs; exact State.claimEnded_inv h id inside
  | claimCancelled => cases hs; exact (State.releaseAll_spec h.held h.wheel).1
  | setVisible v => cases hs; exact State.setVisible_inv h v
  | toggle => cases hs; exact State.setVisible_inv h _
  | wheelTick due =>
    simp only [step] at hs
    split at hs
    · cases hs
      exact State.wheelTick_inv h due ‹_›
    · cases hs

theorem run_inv {as : List Act} {s : State} (h : run step init as = some s) : Inv s :=
  trace_inv_all (fun _ s => Inv s) init_inv (fun _ _ _ _ hi hs => step_inv hi hs) h

/-- In every run of touches, ticks, hides and cancels the held mask is the union of the
buttons under the claimed pointers, each button goes down and up in turn at the sink,
the timer is posted exactly while the wheel turns, and neither a hidden overlay nor one
that was cancelled has anything held, claimed or ticking. -/
theorem overlay_balance (as : List Act) (s : State) (h : run step init as = some s) :
    s.heldMask = unionOf (masks s.pointers) ∧
    (∀ b, run (alternate (MouseCall.downs b) (MouseCall.ups b)) false s.calls = some (b.isIn s.heldMask)) ∧
    (0 < s.posts ↔ s.rate ≠ .zero) ∧ (s.visible = false → s.AtRest) ∧
    (as.getLast? = some .claimCancelled → s.AtRest) := by
  have hi := run_inv h
  refine ⟨hi.held.union, hi.held.heard, ?_, fun hv => ?_, fun hlast => ?_⟩
  · rw [hi.wheel.posted, hi.wheel.turning]
    by_cases hr : s.rate = .zero <;> simp [hr]
  · obtain ⟨hp, hr, hs⟩ := hi.hidden hv
    refine ⟨hp, ?_, hs, hr, ?_⟩
    · rw [hi.held.union, hp]
      rfl
    · rw [hi.wheel.posted, hi.wheel.turning, hr]
      rfl
  · obtain ⟨as', rfl⟩ := List.getLast?_eq_some_iff.1 hlast
    obtain ⟨u, hu, hstep⟩ := run_append_some h
    obtain ⟨v, hv, hnil⟩ := run_cons_some hstep
    cases hnil
    cases hv
    exact (State.releaseAll_spec (run_inv hu).held (run_inv hu).wheel).2.1

/-- Two fingers on one button, one on another and one on the strip. -/
def grip : List Act :=
  [.toggle, .claimTouch 0 (some .left) none, .claimTouch 1 (some .left) none, .claimTouch 2 (some .right) none,
    .claimTouch 3 (some .scroll) (some .up), .claimEnded 0 false, .wheelTick true]

theorem overlay_balance_grip :
    ∃ s, run step init grip = some s ∧ s.heldMask = 5 ∧ 0 < s.posts ∧ s.rate ≠ .zero := by
  obtain ⟨s, hs⟩ : ∃ s, run step init grip = some s := ⟨_, rfl⟩
  have hall := overlay_balance grip s hs
  have hposts : 0 < s.posts := by
    cases hs
    decide
  refine ⟨s, hs, ?_, hposts, hall.2.2.1.1 hposts⟩
  cases hs
  decide

end MouseOverlay

end Vento.Control
