import Mathlib.Algebra.Ring.Int.Defs
import Mathlib.Data.Finset.Dedup
import Mathlib.Data.Finset.Erase
import Mathlib.Data.Finset.Insert
import Mathlib.Tactic.Common
import Vento.Rustdesk.Keys
/-!
# The pointer at a RustDesk peer

`rustdesk/src/client.rs`: the caller says where the pointer is and which buttons are held, and the peer is sent what
changed, as moves, presses, releases and turns of the wheel, on the desktop that the captured display is a part of.

`FarEnd` is what the events come to when they are replayed. It is where the caller says exactly if each call that does
not move the pointer finds the display where the last call found it, if no sum of a coordinate and the display's corner
wraps, and if no wheel is turned both ways in one call (`served_iff`).
-/

namespace Vento.Rustdesk.Pointer

open Vento.Lib Vento.Rustdesk.Keymap

/-! ## The client -/

def typeMove : Int32 := 0
def typeDown : Int32 := 1
def typeUp : Int32 := 2
def typeWheel : Int32 := 3

def left : Int32 := 0x01
def right : Int32 := 0x02
def middle : Int32 := 0x04
def back : Int32 := 0x08
def forward : Int32 := 0x10

/-- RFB's buttons and the peer's. -/
def buttons : List (Int32 × Int32) := [(0x01, left), (0x02, middle), (0x04, right), (0x80, back), (0x100, forward)]

def wheelNotch : Int32 := 1

structure MouseEvent where
  mask : Int32
  x : Int32
  y : Int32
  modifiers : List ControlKey
deriving DecidableEq, Repr

/-- The keys held, the captured display's corner, the last position and mask, and what was sent. -/
structure Client where
  keys : Keys
  origin : Int32 × Int32
  pointer : Int32 × Int32 × Int32
  sent : List MouseEvent

/-- The far end says where the display that it captures is, or the caller where the pointer is. -/
inductive PointerOp where
  | switched (x y : Int32)
  | pointer (x y mask : Int32)
deriving DecidableEq, Repr

namespace Client

def start : Client := ⟨Keys.start, (0, 0), (-1, -1, 0), []⟩

def mouse (s : Client) (mask x y : Int32) (withModifiers : Bool) : Client :=
  { s with sent := s.sent ++ [⟨mask, x, y, if withModifiers then s.keys.heldModifiers none else []⟩] }

/-- The turn of the loop over `buttons`. -/
def button (x y mask was : Int32) (s : Client) (pair : Int32 × Int32) : Client :=
  let down := mask &&& pair.1 != 0
  if down != (was &&& pair.1 != 0) then s.mouse ((if down then typeDown else typeUp) ||| (pair.2 <<< 3)) x y down else s

/-- How far the wheel bits that are newly set scroll, across and up. -/
def scroll (pressed : Int32) : Int32 × Int32 :=
  let dy : Int32 := 0
  let dx : Int32 := 0
  let dy := if pressed &&& 0x08 ≠ 0 then dy + wheelNotch else dy
  let dy := if pressed &&& 0x10 ≠ 0 then dy - wheelNotch else dy
  let dx := if pressed &&& 0x20 ≠ 0 then dx + wheelNotch else dx
  let dx := if pressed &&& 0x40 ≠ 0 then dx - wheelNotch else dx
  (dx, dy)

def wheel (s : Client) (d : Int32 × Int32) : Client :=
  if d.1 ≠ 0 ∨ d.2 ≠ 0 then s.mouse typeWheel d.1 d.2 false else s

def move (s : Client) (moved : Bool) (x y : Int32) : Client := if moved then s.mouse typeMove x y false else s

def pointTo (s : Client) (x y mask : Int32) : Client :=
  if s.keys.viewOnly then s
  else
    let ox := s.origin.1
    let oy := s.origin.2
    let moved := s.pointer.1 != x || s.pointer.2.1 != y
    let was := s.pointer.2.2
    let s := ({ s with pointer := (x, y, mask) } : Client).move moved (x + ox) (y + oy)
    let s := buttons.foldl (button (x + ox) (y + oy) mask was) s
    s.wheel (scroll (mask &&& ~~~was))

def after (s : Client) : PointerOp → Client
  | .switched x y => { s with origin := (x, y) }
  | .pointer x y mask => s.pointTo x y mask

end Client

def driven (ops : List PointerOp) : Client := ops.foldl Client.after Client.start

/-! ## The far end -/

/-- Notches, each way. -/
structure Wheel where
  up : Nat
  down : Nat
  left : Nat
  right : Nat
deriving DecidableEq, Repr

def Wheel.turn (w : Wheel) (dx dy : Int) : Wheel :=
  ⟨w.up + dy.toNat, w.down + (-dy).toNat, w.left + dx.toNat, w.right + (-dx).toNat⟩

/-- Where the pointer was moved to, the buttons that are down and how often the wheel was turned. -/
structure FarEnd where
  place : Option (Int × Int)
  down : Finset Int32
  wheel : Wheel
deriving DecidableEq

namespace FarEnd

def start : FarEnd := ⟨none, ∅, ⟨0, 0, 0, 0⟩⟩

/-- The type of an event is its three low bits, and its button what is above them. -/
def take (f : FarEnd) (e : MouseEvent) : FarEnd :=
  if e.mask &&& 7 = typeMove then { f with place := some (e.x.toInt, e.y.toInt) }
  else if e.mask &&& 7 = typeDown then { f with down := insert (e.mask >>> 3) f.down }
  else if e.mask &&& 7 = typeUp then { f with down := f.down.erase (e.mask >>> 3) }
  else if e.mask &&& 7 = typeWheel then { f with wheel := f.wheel.turn e.x.toInt e.y.toInt }
  else f

def replay (sent : List MouseEvent) : FarEnd := sent.foldl take start

end FarEnd

example : (FarEnd.replay (driven [.switched 1920 665, .pointer 512 384 0x81]).sent).place = some (2432, 1049) := by decide

/-! ## What the calls say -/

/-- The display's corner, and the last call with the corner in force at it. -/
structure Asked where
  origin : Int32 × Int32
  last : Option ((Int32 × Int32) × Int32 × (Int32 × Int32))

namespace Asked

def after (h : Asked) : PointerOp → Asked
  | .switched x y => { h with origin := (x, y) }
  | .pointer x y mask => { h with last := some ((x, y), mask, h.origin) }

def mask (h : Asked) : Int32 := (h.last.map (·.2.1)).getD 0

/-- The position differs from the last one; none is as if it had been at -1, -1. -/
def Moved (h : Asked) (x y : Int32) : Prop := (h.last.map (·.1)).getD (-1, -1) ≠ (x, y)

end Asked

def asked (ops : List PointerOp) : Asked := ops.foldl Asked.after ⟨(0, 0), none⟩

def NewlySet (was mask bit : Int32) : Prop := mask &&& bit ≠ 0 ∧ was &&& bit = 0

instance (was mask bit : Int32) : Decidable (NewlySet was mask bit) := inferInstanceAs (Decidable (_ ∧ _))

/-- The buttons that a mask says are down, by the peer's names. -/
def held (mask : Int32) : Finset Int32 := ((buttons.filter fun pair => mask &&& pair.1 ≠ 0).map (·.2)).toFinset

/-- A call leaves the far end as it says. -/
structure Served (h : Asked) (x y mask : Int32) (f f' : FarEnd) : Prop where
  place : f'.place = some (x.toInt + h.origin.1.toInt, y.toInt + h.origin.2.toInt)
  down : f'.down = held mask
  wheel : f'.wheel = ⟨f.wheel.up + if NewlySet h.mask mask 0x08 then 1 else 0,
    f.wheel.down + if NewlySet h.mask mask 0x10 then 1 else 0, f.wheel.left + if NewlySet h.mask mask 0x20 then 1 else 0,
    f.wheel.right + if NewlySet h.mask mask 0x40 then 1 else 0⟩

/-- The sum does not wrap. -/
def Fits (a b : Int32) : Prop := -2 ^ 31 ≤ a.toInt + b.toInt ∧ a.toInt + b.toInt < 2 ^ 31

/-- What the client can follow. -/
structure Tidy (h : Asked) (x y mask : Int32) : Prop where
  fits : h.Moved x y → Fits x h.origin.1 ∧ Fits y h.origin.2
  stays : ¬h.Moved x y → ∃ l, h.last = some l ∧ l.2.2 = h.origin
  upright : ¬(NewlySet h.mask mask 0x08 ∧ NewlySet h.mask mask 0x10)
  across : ¬(NewlySet h.mask mask 0x20 ∧ NewlySet h.mask mask 0x40)

/-! ## What one call sends -/

theorem replay_snoc (sent : List MouseEvent) (e : MouseEvent) :
    FarEnd.replay (sent ++ [e]) = (FarEnd.replay sent).take e := by
  rw [FarEnd.replay, List.foldl_append]
  rfl

/-- Where the events that the client sent leave the far end. -/
def Client.far (s : Client) : FarEnd := FarEnd.replay s.sent

theorem far_mouse (s : Client) (mask x y : Int32) (withModifiers : Bool) :
    (s.mouse mask x y withModifiers).far =
      s.far.take ⟨mask, x, y, if withModifiers then s.keys.heldModifiers none else []⟩ :=
  replay_snoc _ _

theorem far_move (s : Client) (moved : Bool) (x y : Int32) :
    (s.move moved x y).far = if moved then { s.far with place := some (x.toInt, y.toInt) } else s.far := by
  cases moved with
  | true =>
    refine (far_mouse s typeMove x y false).trans ?_
    exact if_pos (show typeMove &&& 7 = typeMove by decide)
  | false => rfl

/-- A press or a release is read as what it is of. -/
theorem kind_button : ∀ pair ∈ buttons, (typeDown ||| (pair.2 <<< 3)) &&& 7 = typeDown ∧
    (typeDown ||| (pair.2 <<< 3)) >>> 3 = pair.2 ∧ (typeUp ||| (pair.2 <<< 3)) &&& 7 = typeUp ∧
    (typeUp ||| (pair.2 <<< 3)) >>> 3 = pair.2 := by
  intro pair h
  simp only [buttons, List.mem_cons, List.not_mem_nil, or_false] at h
  rcases h with rfl | rfl | rfl | rfl | rfl <;> decide

theorem far_press {s : Client} {pair : Int32 × Int32} (h : pair ∈ buttons) (x y : Int32) (m : Bool) :
    (s.mouse (typeDown ||| (pair.2 <<< 3)) x y m).far = { s.far with down := insert pair.2 s.far.down } := by
  obtain ⟨hkind, hbutton, -, -⟩ := kind_button pair h
  rw [far_mouse, FarEnd.take, hkind, hbutton]
  rfl

theorem far_release {s : Client} {pair : Int32 × Int32} (h : pair ∈ buttons) (x y : Int32) (m : Bool) :
    (s.mouse (typeUp ||| (pair.2 <<< 3)) x y m).far = { s.far with down := s.far.down.erase pair.2 } := by
  obtain ⟨-, -, hkind, hbutton⟩ := kind_button pair h
  rw [far_mouse, FarEnd.take, hkind, hbutton]
  rfl

/-- A button that was as the last mask says is as the new one says. -/
theorem far_button {s : Client} {x y mask was : Int32} {pair : Int32 × Int32} (h : pair ∈ buttons)
    (hwas : pair.2 ∈ s.far.down ↔ was &&& pair.1 ≠ 0) :
    ∃ down, (s.button x y mask was pair).far = { s.far with down := down } ∧
      ∀ b, b ∈ down ↔ if b = pair.2 then mask &&& pair.1 ≠ 0 else b ∈ s.far.down := by
  unfold Client.button
  dsimp only
  by_cases hdown : mask &&& pair.1 = 0
  · by_cases hup : was &&& pair.1 = 0
    · refine ⟨s.far.down, by simp [hdown, hup], fun b => ?_⟩
      split
      · next heq => rw [heq, hwas, hup, hdown]
      · rfl
    · refine ⟨s.far.down.erase pair.2, by simp [hdown, hup, far_release h], fun b => ?_⟩
      rw [Finset.mem_erase]
      split
      · next heq => simp [heq, hdown]
      · next hne => simp [hne]
  · by_cases hup : was &&& pair.1 = 0
    · refine ⟨insert pair.2 s.far.down, by simp [hdown, hup, far_press h], fun b => ?_⟩
      rw [Finset.mem_insert]
      split
      · next heq => simp [heq, hdown]
      · next hne => simp [hne]
    · refine ⟨s.far.down, by rw [bne_iff_ne.2 hdown, bne_iff_ne.2 hup]; rfl, fun b => ?_⟩
      split
      · next heq => simp [heq, hwas, hup, hdown]
      · rfl

theorem far_buttons {x y mask was : Int32} {pairs : List (Int32 × Int32)} (h : ∀ pair ∈ pairs, pair ∈ buttons)
    (hnodup : (pairs.map (·.2)).Nodup) {s : Client} (hwas : ∀ pair ∈ pairs, pair.2 ∈ s.far.down ↔ was &&& pair.1 ≠ 0) :
    ∃ down, (pairs.foldl (Client.button x y mask was) s).far = { s.far with down := down } ∧
      ∀ b, b ∈ down ↔ (∃ pair ∈ pairs, pair.2 = b ∧ mask &&& pair.1 ≠ 0) ∨ b ∉ pairs.map (·.2) ∧ b ∈ s.far.down := by
  induction pairs generalizing s with
  | nil => exact ⟨s.far.down, rfl, by simp⟩
  | cons pair pairs ih =>
    rw [List.forall_mem_cons] at h hwas
    rw [List.map_cons, List.nodup_cons] at hnodup
    obtain ⟨down, hfar, hdown⟩ := @far_button s x y mask was pair h.1 hwas.1
    have hrest : ∀ p ∈ pairs, p.2 ∈ (s.button x y mask was pair).far.down ↔ was &&& p.1 ≠ 0 := by
      intro p hp
      have hne : p.2 ≠ pair.2 := fun heq => hnodup.1 (List.mem_map.2 ⟨p, hp, heq⟩)
      rw [hfar, hdown, if_neg hne]
      exact hwas.2 p hp
    obtain ⟨down', hfar', hdown'⟩ := ih h.2 hnodup.2 hrest
    refine ⟨down', by rw [List.foldl_cons, hfar', hfar], fun b => ?_⟩
    rw [hdown', hfar, hdown]
    by_cases heq : b = pair.2
    · have hnot : ¬∃ p ∈ pairs, p.2 = b ∧ mask &&& p.1 ≠ 0 := by
        rintro ⟨p, hp, hb, -⟩
        exact hnodup.1 (List.mem_map.2 ⟨p, hp, hb.trans heq⟩)
      have hmem : b ∉ pairs.map (·.2) := heq ▸ hnodup.1
      rw [if_pos heq, or_iff_right hnot, and_iff_right hmem, List.exists_mem_cons_iff, List.map_cons, List.mem_cons,
        or_iff_left hnot, and_iff_right heq.symm, not_or]
      exact ⟨.inl, fun h => h.elim id fun h => absurd heq h.1.1⟩
    · simp [heq, Ne.symm heq]

theorem mem_held {mask b : Int32} : b ∈ held mask ↔ ∃ pair ∈ buttons, pair.2 = b ∧ mask &&& pair.1 ≠ 0 := by
  rw [held, List.mem_toFinset, List.mem_map]
  constructor
  · rintro ⟨pair, hpair, rfl⟩
    obtain ⟨hmem, hset⟩ := List.mem_filter.1 hpair
    exact ⟨pair, hmem, rfl, by simpa using hset⟩
  · rintro ⟨pair, hmem, rfl, hset⟩
    exact ⟨pair, List.mem_filter.2 ⟨hmem, by simpa using hset⟩, rfl⟩

/-- Every button of the mask that goes down or comes up is sent, and none beside. -/
theorem far_held {s : Client} {x y mask was : Int32} (h : s.far.down = held was) :
    (buttons.foldl (Client.button x y mask was) s).far = { s.far with down := held mask } := by
  have hnodup : (buttons.map (·.2)).Nodup := by decide
  have hwas : ∀ pair ∈ buttons, pair.2 ∈ s.far.down ↔ was &&& pair.1 ≠ 0 := by
    intro pair hpair
    rw [h, mem_held]
    constructor
    · rintro ⟨p, hp, heq, hset⟩
      rwa [List.inj_on_of_nodup_map hnodup hp hpair heq] at hset
    · exact fun hset => ⟨pair, hpair, rfl, hset⟩
  obtain ⟨down, hfar, hdown⟩ := @far_buttons x y mask was buttons (fun _ h => h) hnodup s hwas
  have heq : down = held mask := by
    ext b
    rw [hdown, mem_held, or_iff_left]
    rintro ⟨hnot, hmem⟩
    rw [h, mem_held] at hmem
    obtain ⟨p, hp, rfl, -⟩ := hmem
    exact hnot (List.mem_map.2 ⟨p, hp, rfl⟩)
  rw [hfar, heq]

theorem far_wheel (s : Client) (d : Int32 × Int32) :
    (s.wheel d).far = { s.far with wheel := s.far.wheel.turn d.1.toInt d.2.toInt } := by
  unfold Client.wheel
  split
  · refine (far_mouse s typeWheel d.1 d.2 false).trans ?_
    refine (if_neg (show typeWheel &&& 7 ≠ typeMove by decide)).trans ?_
    refine (if_neg (show typeWheel &&& 7 ≠ typeDown by decide)).trans ?_
    refine (if_neg (show typeWheel &&& 7 ≠ typeUp by decide)).trans ?_
    exact if_pos (show typeWheel &&& 7 = typeWheel by decide)
  · next h =>
    rw [not_or, not_not, not_not] at h
    rw [h.1, h.2]
    rfl

/-- Only what is sent changes. -/
def Client.Same (s s' : Client) : Prop := s'.keys = s.keys ∧ s'.origin = s.origin ∧ s'.pointer = s.pointer

theorem same_move (s : Client) (moved : Bool) (x y : Int32) : s.Same (s.move moved x y) := by
  unfold Client.move
  split <;> exact ⟨rfl, rfl, rfl⟩

theorem same_button (s : Client) (x y mask was : Int32) (pair : Int32 × Int32) : s.Same (s.button x y mask was pair) := by
  unfold Client.button
  dsimp only
  split <;> exact ⟨rfl, rfl, rfl⟩

theorem same_buttons (pairs : List (Int32 × Int32)) (x y mask was : Int32) (s : Client) :
    s.Same (pairs.foldl (Client.button x y mask was) s) := by
  induction pairs generalizing s with
  | nil => exact ⟨rfl, rfl, rfl⟩
  | cons pair pairs ih =>
    obtain ⟨hkeys, horigin, hpointer⟩ := same_button s x y mask was pair
    obtain ⟨hkeys', horigin', hpointer'⟩ := ih (s.button x y mask was pair)
    exact ⟨hkeys'.trans hkeys, horigin'.trans horigin, hpointer'.trans hpointer⟩

theorem same_wheel (s : Client) (d : Int32 × Int32) : s.Same (s.wheel d) := by
  unfold Client.wheel
  split <;> exact ⟨rfl, rfl, rfl⟩

/-- What a call leaves of the client and of the far end. -/
theorem pointTo_spec {s : Client} {x y mask : Int32} (hview : s.keys.viewOnly = false) (hdown : s.far.down = held s.pointer.2.2) :
    let s' := s.pointTo x y mask
    let d := Client.scroll (mask &&& ~~~s.pointer.2.2)
    s'.keys = s.keys ∧ s'.origin = s.origin ∧ s'.pointer = (x, y, mask) ∧
      s'.far = ⟨if (s.pointer.1, s.pointer.2.1) = (x, y) then s.far.place
        else some ((x + s.origin.1).toInt, (y + s.origin.2).toInt), held mask, s.far.wheel.turn d.1.toInt d.2.toInt⟩ := by
  dsimp only
  unfold Client.pointTo
  rw [if_neg (by simp [hview])]
  dsimp only
  generalize hmoved : (s.pointer.1 != x || s.pointer.2.1 != y) = moved
  generalize hs₁ : ({ s with pointer := (x, y, mask) } : Client).move moved (x + s.origin.1) (y + s.origin.2) = s₁
  generalize hs₂ : buttons.foldl (Client.button (x + s.origin.1) (y + s.origin.2) mask s.pointer.2.2) s₁ = s₂
  obtain ⟨hkeys₁, horigin₁, hpointer₁⟩ : Client.Same { s with pointer := (x, y, mask) } s₁ := hs₁ ▸ same_move _ _ _ _
  obtain ⟨hkeys₂, horigin₂, hpointer₂⟩ : s₁.Same s₂ := hs₂ ▸ same_buttons _ _ _ _ _ _
  obtain ⟨hkeys₃, horigin₃, hpointer₃⟩ := same_wheel s₂ (Client.scroll (mask &&& ~~~s.pointer.2.2))
  refine ⟨hkeys₃.trans (hkeys₂.trans hkeys₁), horigin₃.trans (horigin₂.trans horigin₁),
    hpointer₃.trans (hpointer₂.trans hpointer₁), ?_⟩
  have hfar₁ : s₁.far = if moved then { s.far with place := some ((x + s.origin.1).toInt, (y + s.origin.2).toInt) } else s.far :=
    hs₁ ▸ far_move _ _ _ _
  have hdown₁ : s₁.far.down = held s.pointer.2.2 := by
    rw [hfar₁, ← hdown]
    split <;> rfl
  have hfar₂ : s₂.far = { s₁.far with down := held mask } := hs₂ ▸ far_held hdown₁
  rw [far_wheel, hfar₂, hfar₁]
  cases moved with
  | true =>
    have hne : ¬(s.pointer.1, s.pointer.2.1) = (x, y) := by
      rintro heq
      cases heq
      simp at hmoved
    rw [if_neg hne]
    rfl
  | false =>
    have heq : (s.pointer.1, s.pointer.2.1) = (x, y) := by simpa using hmoved
    rw [if_pos heq]
    rfl

/-! ## The wheel -/

theorem and_bit (m : Int32) {i : Nat} (h : i < 32) :
    m &&& Int32.ofBitVec (BitVec.twoPow 32 i) = 0 ↔ m.toBitVec.getLsbD i = false := by
  rw [← Int32.toBitVec_inj, Int32.toBitVec_and, Int32.toBitVec_ofBitVec, BitVec.and_twoPow]
  cases m.toBitVec.getLsbD i with
  | true =>
    refine iff_of_false (fun heq => ?_) (by decide)
    have hbit := congrArg (fun b : BitVec 32 => b.getLsbD i) heq
    simp [h] at hbit
  | false => exact iff_of_true rfl rfl

/-- `mask & !was` has the bits that are newly set. -/
theorem pressed_iff (was mask : Int32) {i : Nat} (h : i < 32) :
    (mask &&& ~~~was) &&& Int32.ofBitVec (BitVec.twoPow 32 i) ≠ 0 ↔
      NewlySet was mask (Int32.ofBitVec (BitVec.twoPow 32 i)) := by
  rw [NewlySet, Ne, Ne, and_bit _ h, and_bit _ h, and_bit _ h, Int32.toBitVec_and, Int32.toBitVec_not, BitVec.getLsbD_and,
    BitVec.getLsbD_not]
  simp [h]

/-- A notch each way in one call is none. -/
theorem axis_iff (p q : Prop) [Decidable p] [Decidable q] (a b : Nat) :
    (a + (if q then (if p then (0 : Int32) + wheelNotch else 0) - wheelNotch
        else if p then (0 : Int32) + wheelNotch else 0).toInt.toNat = a + (if p then 1 else 0) ∧
      b + (-(if q then (if p then (0 : Int32) + wheelNotch else 0) - wheelNotch
        else if p then (0 : Int32) + wheelNotch else 0).toInt).toNat = b + if q then 1 else 0) ↔ ¬(p ∧ q) := by
  have hone : ((0 : Int32) + wheelNotch).toInt = 1 := by decide
  have hnone : ((0 : Int32) + wheelNotch - wheelNotch).toInt = 0 := by decide
  have hless : ((0 : Int32) - wheelNotch).toInt = -1 := by decide
  by_cases hp : p
  · by_cases hq : q
    · simp only [if_pos hp, if_pos hq, hnone]
      simp [hp, hq]
    · simp only [if_pos hp, if_neg hq, hone]
      simp [hq]
  · by_cases hq : q
    · simp only [if_neg hp, if_pos hq, hless]
      simp [hp]
    · simp only [if_neg hp, if_neg hq]
      simp [hp]

theorem turn_iff (w : Wheel) (was mask : Int32) :
    w.turn (Client.scroll (mask &&& ~~~was)).1.toInt (Client.scroll (mask &&& ~~~was)).2.toInt =
        ⟨w.up + if NewlySet was mask 0x08 then 1 else 0, w.down + if NewlySet was mask 0x10 then 1 else 0,
          w.left + if NewlySet was mask 0x20 then 1 else 0, w.right + if NewlySet was mask 0x40 then 1 else 0⟩ ↔
      ¬(NewlySet was mask 0x08 ∧ NewlySet was mask 0x10) ∧ ¬(NewlySet was mask 0x20 ∧ NewlySet was mask 0x40) := by
  have hup : (mask &&& ~~~was) &&& 0x08 ≠ 0 ↔ NewlySet was mask 0x08 := pressed_iff was mask (i := 3) (by decide)
  have hdown : (mask &&& ~~~was) &&& 0x10 ≠ 0 ↔ NewlySet was mask 0x10 := pressed_iff was mask (i := 4) (by decide)
  have hleft : (mask &&& ~~~was) &&& 0x20 ≠ 0 ↔ NewlySet was mask 0x20 := pressed_iff was mask (i := 5) (by decide)
  have hright : (mask &&& ~~~was) &&& 0x40 ≠ 0 ↔ NewlySet was mask 0x40 := pressed_iff was mask (i := 6) (by decide)
  unfold Client.scroll
  simp only [hup, hdown, hleft, hright, Wheel.turn, Wheel.mk.injEq]
  rw [← axis_iff (NewlySet was mask 0x08) (NewlySet was mask 0x10) w.up w.down,
    ← axis_iff (NewlySet was mask 0x20) (NewlySet was mask 0x40) w.left w.right, and_assoc]

/-! ## Every run -/

theorem fits_iff (a b : Int32) : (a + b).toInt = a.toInt + b.toInt ↔ Fits a b := by
  rw [Fits, Int32.toInt_add]
  constructor
  · intro h
    have hle := Int.le_bmod (x := a.toInt + b.toInt) (m := 2 ^ 32) (by decide)
    have hlt := Int.bmod_lt (x := a.toInt + b.toInt) (m := 2 ^ 32) (by decide)
    omega
  · rintro ⟨hle, hlt⟩
    exact Int.bmod_eq_of_le (by omega) (by omega)

/-- What the client knows and what the far end has come to are what the calls said. -/
structure Kept (ops : List PointerOp) (s : Client) : Prop where
  viewing : s.keys.viewOnly = false
  origin : s.origin = (asked ops).origin
  place : (s.pointer.1, s.pointer.2.1) = ((asked ops).last.map (·.1)).getD (-1, -1)
  mask : s.pointer.2.2 = (asked ops).mask
  down : s.far.down = held (asked ops).mask
  far : s.far.place = (asked ops).last.map fun l => (l.1.1.toInt + l.2.2.1.toInt, l.1.2.toInt + l.2.2.2.toInt)

theorem asked_snoc (ops : List PointerOp) (op : PointerOp) : asked (ops ++ [op]) = (asked ops).after op := by
  rw [asked, List.foldl_append]
  rfl

/-- What a call is to do, given the calls before it. -/
def ServedAt (ops : List PointerOp) (op : PointerOp) (s s' : Client) : Prop :=
  match op with
  | .switched _ _ => True
  | .pointer x y mask => Served (asked ops) x y mask s.far s'.far

def TidyAt (ops : List PointerOp) : PointerOp → Prop
  | .switched _ _ => True
  | .pointer x y mask => Tidy (asked ops) x y mask

theorem served_iff_tidy {ops : List PointerOp} {s : Client} (hk : Kept ops s) (x y mask : Int32) :
    Served (asked ops) x y mask s.far (s.pointTo x y mask).far ↔ Tidy (asked ops) x y mask := by
  have hheld : s.far.down = held s.pointer.2.2 := by rw [hk.mask, hk.down]
  obtain ⟨-, -, -, hfar⟩ := @pointTo_spec s x y mask hk.viewing hheld
  rw [hk.place, hk.mask, hk.origin] at hfar
  have hwheel := turn_iff s.far.wheel (asked ops).mask mask
  constructor
  · intro hs
    have hturn := hs.wheel
    rw [hfar] at hturn
    obtain ⟨hupright, hacross⟩ := hwheel.1 hturn
    have hplace := hs.place
    rw [hfar] at hplace
    refine ⟨fun hmoved => ?_, fun hmoved => ?_, hupright, hacross⟩
    · have hsum := (if_neg hmoved).symm.trans hplace
      simp only [Option.some.injEq, Prod.mk.injEq, fits_iff] at hsum
      exact hsum
    · have hsame := (if_pos (not_not.1 hmoved)).symm.trans hplace
      rw [hk.far] at hsame
      obtain ⟨l, hl, hsum⟩ := Option.map_eq_some_iff.1 hsame
      have hat : l.1 = (x, y) := by
        have hm := not_not.1 hmoved
        rwa [hl] at hm
      rw [hat] at hsum
      obtain ⟨hx, hy⟩ := Prod.mk.inj hsum
      exact ⟨l, hl, Prod.ext (Int32.toInt_inj.1 (Int.add_left_cancel hx)) (Int32.toInt_inj.1 (Int.add_left_cancel hy))⟩
  · intro ht
    refine ⟨?_, by rw [hfar], by rw [hfar]; exact hwheel.2 ⟨ht.upright, ht.across⟩⟩
    rw [hfar]
    dsimp only
    split
    · next hstay =>
      obtain ⟨l, hl, horigin⟩ := ht.stays (not_not.2 hstay)
      rw [hl] at hstay
      have hat : l.1 = (x, y) := hstay
      rw [hk.far, hl, Option.map_some, hat, horigin]
    · next hmoved =>
      obtain ⟨hx, hy⟩ := ht.fits hmoved
      rw [(fits_iff _ _).2 hx, (fits_iff _ _).2 hy]

theorem kept_start : Kept [] Client.start := ⟨rfl, rfl, rfl, rfl, by decide, rfl⟩

/-- An allowed call, and any move of the display, leaves the two ends in step. -/
theorem kept_after {ops : List PointerOp} {s : Client} {op : PointerOp} (hk : Kept ops s) (ht : TidyAt ops op) :
    Kept (ops ++ [op]) (s.after op) := by
  cases op with
  | switched x y =>
    refine ⟨hk.viewing, ?_, ?_, ?_, ?_, ?_⟩ <;> rw [asked_snoc]
    · rfl
    · exact hk.place
    · exact hk.mask
    · exact hk.down
    · exact hk.far
  | pointer x y mask =>
    have hheld : s.far.down = held s.pointer.2.2 := by rw [hk.mask, hk.down]
    obtain ⟨hkeys, horigin, hpointer, -⟩ := @pointTo_spec s x y mask hk.viewing hheld
    obtain ⟨hplace, hdown, -⟩ := (served_iff_tidy hk x y mask).2 ht
    refine ⟨(congrArg Keys.viewOnly hkeys).trans hk.viewing, ?_, ?_, ?_, ?_, ?_⟩ <;> rw [asked_snoc]
    · exact horigin.trans hk.origin
    · rw [Client.after, hpointer]
      rfl
    · rw [Client.after, hpointer]
      rfl
    · exact hdown
    · exact hplace

/-- The far end is where the calls say after each of them exactly if each is one that the client can follow. -/
theorem served_iff (ops : List PointerOp) :
    (∀ pre x y mask post, ops = pre ++ .pointer x y mask :: post →
        Served (asked pre) x y mask (driven pre).far (driven (pre ++ [.pointer x y mask])).far) ↔
      ∀ pre x y mask post, ops = pre ++ .pointer x y mask :: post → Tidy (asked pre) x y mask := by
  have hserved : ∀ tr s op, Kept tr s → (ServedAt tr op s (s.after op) ↔ TidyAt tr op) := by
    intro tr s op hk
    cases op with
    | switched x y => exact Iff.rfl
    | pointer x y mask => exact served_iff_tidy hk x y mask
  have hiff := fold_steps_iff Kept kept_start hserved (fun tr s op hk ht => kept_after hk ht) ops
  constructor
  · intro h pre x y mask post heq
    refine hiff.1 (fun pre op post heq => ?_) pre (.pointer x y mask) post heq
    cases op with
    | switched x y => trivial
    | pointer x y mask => exact h pre x y mask post heq
  · intro h pre x y mask post heq
    refine hiff.2 (fun pre op post heq => ?_) pre (.pointer x y mask) post heq
    cases op with
    | switched x y => trivial
    | pointer x y mask => exact h pre x y mask post heq

/-- The display moves under a pointer that stays where it is in the picture, and no move is sent. -/
theorem served_not_switched :
    ¬Served (asked [.pointer 512 384 0, .switched 1920 665]) 512 384 0
      (driven [.pointer 512 384 0, .switched 1920 665]).far
      (driven [.pointer 512 384 0, .switched 1920 665, .pointer 512 384 0]).far :=
  fun h => absurd h.place (by decide)

end Vento.Rustdesk.Pointer
