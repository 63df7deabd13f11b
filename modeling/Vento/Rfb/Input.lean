import Vento.Rfb.Keys
import Vento.Runtime.Input
/-!
# Keys and buttons of an RFB client

The pointer's calls of the RFB client beside those of its keys (`Keys`), and what the server is left
with. Each call looks at view-only by itself: a press that was sent is left there if its release comes
while view-only is on.
-/

namespace Vento.Rfb

open Vento.Lib Vento.Input

/-- A `PointerEvent` message; a second byte of buttons follows where the extension is in use. -/
structure PointerEvent where
  buttons : UInt8
  x : UInt16
  y : UInt16
  high : Option UInt8
deriving DecidableEq, Repr

def pointerEvent (x y buttons : UInt16) (extended : Bool) : PointerEvent where
  buttons := if extended then (buttons &&& 0x7f).toUInt8 ||| 0x80 else (buttons &&& 0xff).toUInt8
  x := x
  y := y
  high := if extended then some ((buttons >>> 7) &&& 0xff).toUInt8 else none

/-- The buttons a server reads: the two bytes together, or the one. -/
def PointerEvent.mask (e : PointerEvent) : UInt16 :=
  match e.high with
  | some high => (high.toUInt16 <<< 7) ||| (e.buttons.toUInt16 &&& 0x7f)
  | none => e.buttons.toUInt16

/-- A delta as relative mode has it. -/
def bias (delta : Int32) : UInt16 := UInt16.ofNat (max 0 (min (0x7fff + delta).toInt 0xffff)).toNat

/-- Where a pointer call puts it: `pointer`, or `pointer_relative`. -/
inductive Place where
  | absolute (x y : UInt16)
  | relative (dx dy : Int32)
deriving DecidableEq, Repr

def Place.coordinates : Place → UInt16 × UInt16
  | .absolute x y => (x, y)
  | .relative dx dy => (bias dx, bias dy)

/-- The place, and whether the server has said by then that it takes nine buttons. -/
abbrev At := Place × Bool

/-- The keys, and the pointer messages sent. -/
structure Pad where
  keys : Keys
  pointers : List PointerEvent

namespace Pad

def start : Pad := ⟨Keys.start, []⟩

def pointer (s : Pad) (at_ : At) (mask : UInt16) : Pad :=
  if s.keys.viewOnly then s
  else
    let (x, y) := at_.1.coordinates
    { s with pointers := s.pointers ++ [pointerEvent x y mask at_.2] }

def step (s : Pad) : Call At (List UInt32) → Option Pad
  | .keyDown keysym id => some { s with keys := s.keys.keyDown keysym id }
  | .keyUp id => some { s with keys := s.keys.keyUp id }
  | .releaseAllKeys order =>
    if order.Perm s.keys.keysyms then some { s with keys := s.keys.releaseAllKeys order } else none
  | .pointer at_ mask => some (s.pointer at_ mask)
  | .setViewOnly viewOnly => some { s with keys := s.keys.setViewOnly viewOnly }

/-- The buttons that the server has down: those of the last message. -/
def mask (s : Pad) : UInt16 := (s.pointers.getLast?.map PointerEvent.mask).getD 0

/-- A held id is pressed again only as what it is or what another id is too; it comes up, and the last
button does, while view-only is off. -/
def Calm (s : Pad) : Call At (List UInt32) → Prop
  | .keyDown keysym id => s.keys.Tidy (.keyDown keysym id)
  | .keyUp id => s.keys.viewOnly = true → s.keys.held.lookup id = none
  | .pointer _ mask => s.keys.viewOnly = true → mask = 0 → s.mask = 0
  | _ => True

instance (s : Pad) : DecidablePred s.Calm
  | .keyDown keysym id => inferInstanceAs (Decidable (s.keys.Tidy (.keyDown keysym id)))
  | .keyUp _ => inferInstanceAs (Decidable (_ → _))
  | .pointer _ _ => inferInstanceAs (Decidable (_ → _ → _))
  | .releaseAllKeys _ | .setViewOnly _ => isTrue trivial

/-- What the server holds is in the map. -/
def Covered (s : Keys) : Prop := ∀ k, Unreleased s.sent k → ∃ id, s.held.lookup id = some k

theorem covered_start : Covered Keys.start := by
  rintro k ⟨pre, post, heq, -⟩
  exact absurd heq.symm (List.append_ne_nil_of_right_ne_nil pre (List.cons_ne_nil _ post))

theorem covered_keyDown {s : Keys} (h : Covered s) {keysym : UInt32} {id : Int64}
    (hc : s.Tidy (.keyDown keysym id)) : Covered (s.keyDown keysym id) := by
  cases hv : s.viewOnly with
  | true => simpa [Keys.keyDown, hv] using h
  | false =>
    intro k hk
    simp only [Keys.keyDown, hv, Bool.false_eq_true, if_false] at hk ⊢
    rw [unreleased_press] at hk
    rw [exists_lookup_insert]
    by_cases heq : k = keysym
    · exact Or.inl heq
    · obtain ⟨i, hi⟩ := h k (hk.resolve_left heq)
      by_cases hne : i = id
      · subst hne
        exact Or.inr (exists_other_iff.mp (hc hv k hi heq))
      · exact Or.inr ⟨i, hne, hi⟩

theorem covered_keyUp {s : Keys} (h : Covered s) (id : Int64) : Covered (s.keyUp id) := by
  cases hv : s.viewOnly with
  | true => simpa [Keys.keyUp, hv] using h
  | false =>
    cases hl : s.held.lookup id with
    | none => simpa [Keys.keyUp, hv, hl] using h
    | some k' =>
      intro k hk
      simp only [Keys.keyUp, hv, hl, Bool.false_eq_true, if_false] at hk ⊢
      rw [unreleased_snoc] at hk
      obtain ⟨hne, hk⟩ := hk.resolve_left (by simp)
      obtain ⟨i, hi⟩ := h k hk
      rw [exists_lookup_erase]
      refine ⟨i, ?_, hi⟩
      rintro rfl
      cases hl.symm.trans hi
      exact hne rfl

theorem covered_releaseAllKeys {s : Keys} (h : Covered s) {order : List UInt32} (ho : order.Perm s.keysyms) :
    Covered (s.releaseAllKeys order) := by
  intro k hk
  obtain ⟨hno, hk⟩ := (unreleased_releases s.sent order k).mp hk
  exact absurd (ho.mem_iff.mpr (Keys.mem_keysyms.mpr (h k hk))) hno

variable {s s' : Pad} {c : Call At (List UInt32)}

theorem releaseAllKeys_some {order : List UInt32} (hs : s.step (.releaseAllKeys order) = some s') :
    order.Perm s.keys.keysyms ∧ s' = { s with keys := s.keys.releaseAllKeys order } := by
  unfold step at hs
  dsimp only at hs
  split at hs
  · rename_i ho
    cases hs
    exact ⟨ho, rfl⟩
  · cases hs

theorem covered_step (h : Covered s.keys) (hc : s.Calm c) (hs : s.step c = some s') : Covered s'.keys := by
  cases c with
  | keyDown keysym id =>
    cases hs
    exact covered_keyDown h hc
  | keyUp id =>
    cases hs
    exact covered_keyUp h id
  | releaseAllKeys order =>
    obtain ⟨ho, rfl⟩ := releaseAllKeys_some hs
    exact covered_releaseAllKeys h ho
  | pointer at_ mask =>
    cases hs
    unfold pointer
    split <;> exact h
  | setViewOnly viewOnly =>
    cases hs
    exact h

/-- An id is in the map since it went down, and not past its release. -/
theorem held_step (hc : s.Calm c) (hs : s.step c = some s') (id : Int64) (hid : s'.keys.held.lookup id ≠ none) :
    (∃ keysym, c = .keyDown keysym id) ∨ (s.keys.held.lookup id ≠ none ∧ c.letsGo id = false) := by
  cases c with
  | keyDown keysym id' =>
    cases hs
    by_cases heq : id' = id
    · subst heq
      exact Or.inl ⟨keysym, rfl⟩
    · refine Or.inr ⟨?_, rfl⟩
      have hid' : (s.keys.keyDown keysym id').held.lookup id ≠ none := hid
      unfold Keys.keyDown at hid'
      split at hid'
      · exact hid'
      · rwa [AList.lookup_insert_ne (Ne.symm heq)] at hid'
  | keyUp id' =>
    cases hs
    obtain ⟨k, hk⟩ := Option.ne_none_iff_exists'.mp hid
    obtain ⟨hold, hview⟩ := Keys.keyUp_lookup hk
    have hne : s.keys.held.lookup id ≠ none := by
      rw [hold]
      nofun
    refine Or.inr ⟨hne, ?_⟩
    show decide (id' = id) = false
    rw [decide_eq_false_iff_not]
    rintro rfl
    exact hne (hc (hview rfl))
  | releaseAllKeys order =>
    obtain ⟨-, rfl⟩ := releaseAllKeys_some hs
    exact absurd rfl hid
  | pointer at_ mask =>
    cases hs
    refine Or.inr ⟨?_, rfl⟩
    unfold pointer at hid
    split at hid <;> exact hid
  | setViewOnly viewOnly =>
    cases hs
    exact Or.inr ⟨hid, rfl⟩

theorem mask_zero (x y : UInt16) (extended : Bool) : (pointerEvent x y 0 extended).mask = 0 := by
  cases extended with
  | false => rfl
  | true =>
    show ((((0 : UInt16) >>> 7) &&& 0xff).toUInt8.toUInt16 <<< 7) |||
      ((((0 : UInt16) &&& 0x7f).toUInt8 ||| 0x80).toUInt16 &&& 0x7f) = 0
    decide

theorem mask_step (hs : s.step c = some s') (hn : c.mask? = none) : s'.mask = s.mask := by
  cases c with
  | pointer at_ mask => cases hn
  | releaseAllKeys order =>
    obtain ⟨-, rfl⟩ := releaseAllKeys_some hs
    rfl
  | _ =>
    cases hs
    rfl

/-- Once all is let go of, the server holds no key and no button. -/
theorem unstranded {calls : List (Call At (List UInt32))} (hm : Meets step Calm start calls)
    (hr : run step start calls = some s) (hgo : LetGo calls) (hlast : ∀ m ∈ lastMask calls, m = 0) :
    (∀ k, ¬Unreleased s.keys.sent k) ∧ s.mask = 0 := by
  constructor
  · intro k hk
    have hcov : Covered s.keys :=
      trace_inv (fun _ s => Covered s.keys) covered_start (fun _ _ _ _ hi hc hs => covered_step hi hc hs) hm hr
    obtain ⟨id, hid⟩ := hcov k hk
    refine not_holds (fun s id => s.keys.held.lookup id ≠ none) (fun _ h => h rfl)
      (fun s c s' hc hs id => held_step hc hs id) hm hr hgo id ?_
    rw [hid]
    nofun
  · refine quiet (fun s : Pad => s.mask = 0) rfl ?_ (fun s c s' _ hn hs hq => (mask_step hs hn).trans hq) hm hr hlast
    intro s at_ s' hc hs
    cases hs
    unfold pointer
    split
    · rename_i hv
      exact hc hv rfl
    · simp [Pad.mask, mask_zero]

/-- While view-only is on, what is sent is releases. -/
theorem viewOnly_releases (hv : s.keys.viewOnly = true) (hs : s.step c = some s') :
    (∃ released : List UInt32, s'.keys.sent = s.keys.sent ++ released.map (⟨·, false⟩)) ∧ s'.pointers = s.pointers := by
  cases c with
  | keyDown keysym id =>
    cases hs
    exact ⟨⟨[], by simp [Keys.keyDown, hv]⟩, rfl⟩
  | keyUp id =>
    cases hs
    exact ⟨⟨[], by simp [Keys.keyUp, hv]⟩, rfl⟩
  | releaseAllKeys order =>
    obtain ⟨-, rfl⟩ := releaseAllKeys_some hs
    exact ⟨⟨order, rfl⟩, rfl⟩
  | pointer at_ mask =>
    cases hs
    exact ⟨⟨[], by simp [pointer, hv]⟩, by simp [pointer, hv]⟩
  | setViewOnly viewOnly =>
    cases hs
    exact ⟨⟨[], by simp [Keys.setViewOnly]⟩, rfl⟩

end Pad

end Vento.Rfb
