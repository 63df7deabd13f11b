import Vento.Freerdp.Keymap
import Vento.Lib.Table
/-!
# Input on the protocol thread

`doKeyDown`, `doKeyUp`, `doReleaseAll` and `doPointer` of `freerdp/cpp/freerdp_session.c`, and the events that they send.
Input is sent while the session is connected and not view-only; what is held is recorded in a table of `maxHeldKeys`
rows, and is taken out of it whether its release is sent or not.
-/

namespace Vento.Freerdp

open Vento.Lib

def maxHeldKeys : Nat := 64

/-- The buttons, by the flags that RDP has for them. -/
inductive Button where
  | button1 | button2 | button3 | xbutton1 | xbutton2
deriving DecidableEq, Repr

/-- What is sent. Pause is one event for its whole sequence, and the wheel turns by a click. -/
inductive Event where
  | scancode (extended : Bool) (code : UInt8) (down : Bool)
  | pause
  | unicode (unit : UInt16) (down : Bool)
  | move (x y : UInt16)
  | button (button : Button) (down : Bool) (x y : UInt16)
  | wheel (horizontal negative : Bool) (x y : UInt16)
deriving DecidableEq, Repr

/-- A row of the table; `shift` is whether Shift was pressed for it. -/
structure HeldKey where
  id : Int64
  code : UInt16
  shift : Bool
  unicode : UInt16
deriving DecidableEq, Repr

/-- `shiftHeld` is the user's Shift, and `buttons` the last mask. -/
structure Input where
  keys : List HeldKey
  shiftHeld : Bool
  buttons : UInt16
  viewOnly : Bool
  connected : Bool
  sent : List Event
deriving DecidableEq

namespace Input

def start : Input := ⟨[], false, 0, false, true, []⟩

def send (s : Input) (events : List Event) : Input := { s with sent := s.sent ++ events }

/-- Whether input is sent. -/
def sends (s : Input) : Bool := !s.viewOnly && s.connected

end Input

def isExtended (code : UInt16) : Bool := code &&& keyExt != 0

def lowByte (code : UInt16) : UInt8 := (code &&& 0xff).toUInt8

/-- `sendScancode`: the whole sequence of Pause is sent on the press. -/
def scancodeEvents (code : UInt16) (down : Bool) : List Event :=
  if code = keyPause then if down then [.pause] else [] else [.scancode (isExtended code) (lowByte code) down]

namespace Input

/-- The press of a key that is down already. -/
def repeatKey (s : Input) (k : HeldKey) : Input :=
  if k.unicode ≠ 0 then s.send [.unicode k.unicode true] else s.send (scancodeEvents k.code true)

/-- The press of a key that is not. -/
def pressKey (s : Input) (keysym : UInt32) (m : Mapped) : Input :=
  if m.unicode ≠ 0 then s.send [.unicode m.unicode true]
  else
    -- synthesised only where the user is not holding Shift already
    let s := if m.shift && !s.shiftHeld then s.send (scancodeEvents 0x2a true) else s
    let s := s.send (scancodeEvents m.code true)
    if keysym = 0xffe1 ∨ keysym = 0xffe2 then { s with shiftHeld := true } else s

def doKeyDown (s : Input) (keysym : UInt32) (id : Int64) : Input :=
  if !s.sends then s
  else
    let m := mapKeysym keysym
    if m.code = keyNone ∧ m.unicode = 0 then s
    else
      match s.keys.find? (fun k => k.id = id) with
      | some k => s.repeatKey k
      | none =>
        if maxHeldKeys ≤ s.keys.length then s
        else
          let s := s.pressKey keysym m
          { s with keys := s.keys ++ [⟨id, m.code, m.shift && !s.shiftHeld, m.unicode⟩] }

/-- What the release of a key sends and clears. -/
def liftKey (s : Input) (k : HeldKey) : Input :=
  if k.unicode ≠ 0 then s.send [.unicode k.unicode false]
  else
    let s := s.send (scancodeEvents k.code false)
    let s := if k.shift then s.send (scancodeEvents 0x2a false) else s
    if k.code = 0x2a ∨ k.code = 0x36 then { s with shiftHeld := false } else s

def takeOut (s : Input) (i : Nat) : Input := { s with keys := swapRemove s.keys i }

def releaseAt (s : Input) (i : Nat) : Input :=
  match s.keys[i]? with
  | some k => (s.liftKey k).takeOut i
  | none => s

def doKeyUp (s : Input) (id : Int64) : Input :=
  match s.keys.findIdx? (fun k => k.id = id) with
  | some i => if s.sends then s.releaseAt i else s.takeOut i
  | none => s

/-- The loop of `doReleaseAll`, with as many rows left. -/
def releaseRows : Nat → Input → Input
  | 0, s => s
  | n + 1, s => releaseRows n (if s.sends then s.releaseAt n else s.takeOut n)

def doReleaseAll (s : Input) : Input := { releaseRows s.keys.length s with shiftHeld := false }

end Input

/-! ## The pointer -/

/-- The middle button is RDP's third. -/
def buttonBits : List (UInt16 × Button) :=
  [(0x01, .button1), (0x02, .button3), (0x04, .button2), (0x80, .xbutton1), (0x100, .xbutton2)]

def wheelBits : List (UInt16 × Bool × Bool) :=
  [(0x08, false, false), (0x10, false, true), (0x20, true, true), (0x40, true, false)]

/-- The buttons that a new mask changes. -/
def buttonEvents (previous mask x y : UInt16) : List Event :=
  buttonBits.filterMap fun row =>
    let now := mask &&& row.1 != 0
    if now != (previous &&& row.1 != 0) then some (.button row.2 now x y) else none

/-- The notches that it turns the wheel by. -/
def wheelEvents (previous mask x y : UInt16) : List Event :=
  wheelBits.filterMap fun row =>
    if mask &&& row.1 != 0 && !(previous &&& row.1 != 0) then some (.wheel row.2.1 row.2.2 x y) else none

/-- The move is sent first, so a click lands at the new position. -/
def Input.doPointer (s : Input) (x y : Int32) (mask : UInt16) : Input :=
  if !s.sends then s
  else
    let x := x.toUInt32.toUInt16
    let y := y.toUInt32.toUInt16
    ({ s with buttons := mask } : Input).send
      (.move x y :: (buttonEvents s.buttons mask x y ++ wheelEvents s.buttons mask x y))

example : (((Input.start.doKeyDown 0x41 1).doKeyUp 1).doPointer 3 4 0x09).sent =
    [.scancode false 0x2a true, .scancode false 0x1e true, .scancode false 0x1e false, .scancode false 0x2a false,
      .move 3 4, .button .button1 true 3 4, .wheel false false 3 4] := by decide

end Vento.Freerdp
