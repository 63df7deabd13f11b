import Mathlib.Algebra.Ring.Int.Defs
import Vento.Lib.Bytes
import Vento.Lib.Runs
/-!
# The guest's agent

`spice/src/agent.rs`: what the main channel carries between this end and the
program in the guest. A message is a header and a body, cut into pieces for the
wire; the pieces that arrive are put together again here, and those that leave
cost a token each.

A text is the list of its characters; the lengths the code compares are those
of its UTF-8.
-/

namespace Vento.Spice

open Vento.Lib

/-- A text, as its Unicode scalar values. -/
abbrev Text := List Char

/-- `as_bytes`. -/
def asBytes (text : Text) : List UInt8 := text.flatMap String.utf8EncodeChar

def protocol : Nat := 1
def maxPiece : Nat := 2048
def header : Nat := 20
/-- `runtime::MAX_CLIPBOARD`. -/
def maxClipboard : Nat := 1 <<< 20
def maxMessage : Nat := maxClipboard + 8
def utf8Text : Nat := 1
def selectionClipboard : UInt8 := 0
def maxText : Nat := 512 * 1024

namespace Message

def monitorsConfig : Nat := 2
def reply : Nat := 3
def clipboard : Nat := 4
def announceCapabilities : Nat := 6
def clipboardGrab : Nat := 7
def clipboardRequest : Nat := 8
def clipboardRelease : Nat := 9

end Message

namespace Cap

def monitorsConfig : UInt32 := 1
def reply : UInt32 := 2
def clipboardByDemand : UInt32 := 5
def clipboardSelection : UInt32 := 6
def guestLineendLf : UInt32 := 8

end Cap

/-- What the session has to act on. -/
inductive Event where
  | clipboard (text : Text)
  | capabilities
deriving DecidableEq, Repr

/-- A message to the guest: its type and its body. -/
structure Outgoing where
  type : Nat
  body : List UInt8
deriving DecidableEq, Repr

/-- A header, with its second word `unused`, and the body. -/
def whole (type unused : Nat) (body : List UInt8) : List UInt8 :=
  toLeBytes 4 protocol ++ (toLeBytes 4 type ++ (toLeBytes 8 unused ++ (toLeBytes 4 body.length ++ body)))

/-- The bytes of a message to the guest. -/
def Outgoing.bytes (m : Outgoing) : List UInt8 := whole m.type 0 m.body

/-- The pieces it is cut into. -/
def Outgoing.pieces (m : Outgoing) : List (List UInt8) := chunks maxPiece m.bytes

structure Agent where
  isConnected : Bool
  tokens : UInt32
  caps : UInt32
  inbound : List UInt8
  skipping : Nat
  outbound : List (List UInt8)
  ours : Option Text
  offered : Bool
  /-- The messages queued so far. The code keeps no such list: the statements
  about what is sent need it. -/
  queued : List Outgoing
deriving DecidableEq, Repr

namespace Agent

def new : Agent := ⟨false, 0, 0, [], 0, [], none, false, []⟩

def has (s : Agent) (bit : UInt32) : Bool := s.caps &&& (1 <<< bit) != 0

def canResize (s : Agent) : Bool := s.isConnected && s.has Cap.monitorsConfig

def hasClipboard (s : Agent) : Bool := s.isConnected && s.has Cap.clipboardByDemand

/-- Whether the clipboard messages carry a selection byte. -/
def selections (s : Agent) : Bool := s.has Cap.clipboardSelection

def selection (s : Agent) : List UInt8 := if s.selections then [selectionClipboard, 0, 0, 0] else []

def isClipboardSelection (s : Agent) (payload : List UInt8) : Bool :=
  !s.selections || payload.head? == some selectionClipboard

def afterSelection (s : Agent) (payload : List UInt8) : List UInt8 := if s.selections then payload.drop 4 else payload

/-- A message, split into the pieces a token is spent per. -/
def queue (s : Agent) (type : Nat) (body : List UInt8) : Agent :=
  { s with outbound := s.outbound ++ Outgoing.pieces ⟨type, body⟩, queued := s.queued ++ [⟨type, body⟩] }

/-- This end's capabilities, as a request or as the answer to one. -/
def announce (s : Agent) (request : Bool) : Agent :=
  let mask : UInt32 := (1 <<< Cap.monitorsConfig) ||| (1 <<< Cap.reply) ||| (1 <<< Cap.clipboardByDemand) |||
    (1 <<< Cap.clipboardSelection) ||| (1 <<< Cap.guestLineendLf)
  s.queue Message.announceCapabilities (toLeBytes 4 (if request then 1 else 0) ++ toLeBytes 4 mask.toNat)

/-- Tell the guest this end has text, if it can be told yet. -/
def grab (s : Agent) : Agent :=
  if s.offered || !s.hasClipboard || s.ours.isNone then s
  else { s with offered := true }.queue Message.clipboardGrab (s.selection ++ toLeBytes 4 utf8Text)

/-- The agent came up. -/
def connected (s : Agent) (tokens : UInt32) : Agent :=
  { s with isConnected := true, tokens, caps := 0, inbound := [], skipping := 0, outbound := [] }.announce true

/-- The agent went away. -/
def disconnected (s : Agent) : Agent :=
  { s with isConnected := false, caps := 0, inbound := [], skipping := 0, outbound := [], ours := none,
           offered := false }

/-- `saturating_add`. -/
def saturatingAdd (a b : UInt32) : UInt32 := if a.toNat + b.toNat < 2 ^ 32 then a + b else 0xffffffff

def addTokens (s : Agent) (tokens : UInt32) : Agent := { s with tokens := saturatingAdd s.tokens tokens }

/-- What to put in the next `MSG_MAIN_AGENT_DATA`, for a token. -/
def nextPiece (s : Agent) : Agent × Option (List UInt8) :=
  if s.tokens = 0 then (s, none)
  else
    match s.outbound with
    | [] => (s, none)
    | piece :: outbound => ({ s with outbound, tokens := s.tokens - 1 }, some piece)

/-- Offers the local text to the guest. -/
def offerClipboard (s : Agent) (text : Text) : Agent :=
  if text.isEmpty || (asBytes text).length > maxText then s
  else if s.offered && s.ours == some text then s
  else { s with ours := some text, offered := false }.grab

/-- A monitor: its place and its size. -/
structure Monitor where
  x : Int
  y : Int
  width : Nat
  height : Nat
deriving DecidableEq, Repr

/-- `as u32` of an `i32`. -/
def ofI32 (i : Int) : Nat := (i % 2 ^ 32).toNat

/-- Height, width, depth and place, as the agent reads them. -/
def Monitor.bytes (m : Monitor) : List UInt8 :=
  toLeBytes 4 m.height ++ toLeBytes 4 m.width ++ toLeBytes 4 32 ++ toLeBytes 4 (ofI32 m.x) ++ toLeBytes 4 (ofI32 m.y)

/-- Asks the guest to make its desktop these monitors. -/
def requestMonitors (s : Agent) (monitors : List Monitor) : Agent :=
  if !s.canResize || monitors.isEmpty then s
  else s.queue Message.monitorsConfig (toLeBytes 4 monitors.length ++ toLeBytes 4 1 ++ monitors.flatMap Monitor.bytes)

/-- The word at `i`. -/
def word (bs : List UInt8) (i : Nat) : Nat := fromLeBytes ((bs.drop i).take 4)

/-- `chunks_exact(4)`, each chunk a word. -/
def words : List UInt8 → List Nat
  | a :: b :: c :: d :: rest => fromLeBytes [a, b, c, d] :: words rest
  | _ => []

/-- The guest's capabilities. -/
def announced (s : Agent) (payload : List UInt8) : Agent × List Event :=
  if payload.length < 8 then (s, [])
  else
    let s := { s with caps := UInt32.ofNat (word payload 4) }
    let s := if word payload 0 ≠ 0 then s.announce false else s
    (s.grab, [.capabilities])

/-- The guest has something: it is requested if it is text, and the guest owns
the clipboard. -/
def grabbed (s : Agent) (payload : List UInt8) : Agent :=
  let wanted := (words (s.afterSelection payload)).any (· == utf8Text)
  if !s.isClipboardSelection payload || !wanted then s
  else { s with ours := none, offered := false }.queue Message.clipboardRequest (s.selection ++ toLeBytes 4 utf8Text)

/-- The text the guest sends. -/
def provided (s : Agent) (payload : List UInt8) : List Event :=
  let rest := s.afterSelection payload
  if !s.isClipboardSelection payload then []
  else if rest.length < 4 then []
  else if word rest 0 ≠ utf8Text then []
  else [.clipboard (fromUtf8Lossy (rest.drop 4))]

/-- The guest wants what this end offered. -/
def requested (s : Agent) : Agent :=
  match s.ours with
  | some text => s.queue Message.clipboard (s.selection ++ (toLeBytes 4 utf8Text ++ asBytes text))
  | none => s.queue Message.clipboardRelease s.selection

/-- A message that is whole. The other types change nothing here. -/
def message (s : Agent) (type : Nat) (payload : List UInt8) : Agent × List Event :=
  if type = Message.announceCapabilities then s.announced payload
  else if type = Message.clipboardGrab then (s.grabbed payload, [])
  else if type = Message.clipboard then (s, s.provided payload)
  else if type = Message.clipboardRequest then (s.requested, [])
  else (s, [])

/-! ## Receiving

Only the bytes of messages that are not whole yet stay in `inbound`, and
nothing else reads or writes them: `hold` replaces them, and what a message
does commutes with it. -/

/-- The agent with other bytes half received. -/
def hold (s : Agent) (inbound : List UInt8) (skipping : Nat) : Agent := { s with inbound, skipping }

theorem grab_hold (s : Agent) (i : List UInt8) (k : Nat) : (s.hold i k).grab = s.grab.hold i k := by
  unfold grab
  change (if s.offered || !s.hasClipboard || s.ours.isNone then s.hold i k else _) = _
  split <;> rfl

theorem announced_hold (s : Agent) (payload : List UInt8) (i : List UInt8) (k : Nat) :
    (s.hold i k).announced payload = ((s.announced payload).1.hold i k, (s.announced payload).2) := by
  unfold announced
  split
  · rfl
  · simp only [← grab_hold]
    split <;> rfl

theorem grabbed_hold (s : Agent) (payload : List UInt8) (i : List UInt8) (k : Nat) :
    (s.hold i k).grabbed payload = (s.grabbed payload).hold i k := by
  unfold grabbed
  dsimp only
  change (if !s.isClipboardSelection payload || !(words (s.afterSelection payload)).any (· == utf8Text) then s.hold i k
    else _) = _
  split <;> rfl

theorem requested_hold (s : Agent) (i : List UInt8) (k : Nat) : (s.hold i k).requested = s.requested.hold i k := by
  unfold requested
  change (match s.ours with | some text => _ | none => _) = _
  cases s.ours <;> rfl

theorem message_hold (s : Agent) (type : Nat) (payload : List UInt8) (i : List UInt8) (k : Nat) :
    (s.hold i k).message type payload = ((s.message type payload).1.hold i k, (s.message type payload).2) := by
  unfold message
  rw [announced_hold, grabbed_hold, requested_hold]
  repeat' split
  all_goals rfl

theorem message_inbound (s : Agent) (type : Nat) (payload : List UInt8) :
    (s.message type payload).1.inbound = s.inbound := by
  have h := message_hold s type payload s.inbound s.skipping
  exact congrArg (fun r => r.1.inbound) h

theorem message_skipping (s : Agent) (type : Nat) (payload : List UInt8) :
    (s.message type payload).1.skipping = s.skipping := by
  have h := message_hold s type payload s.inbound s.skipping
  exact congrArg (fun r => r.1.skipping) h

/-- The messages that have arrived whole, and what is left of the bytes after
them. -/
def drain (s : Agent) : Agent × List Event :=
  if s.inbound.length < header then (s, [])
  else
    let size := word s.inbound 16
    -- the length that would skip this message is in a part that is not understood
    if word s.inbound 0 ≠ protocol then (s.hold [] s.skipping, [])
    else if size > maxMessage then
      let here := min (s.inbound.length - header) size
      drain (s.hold (s.inbound.drop (header + here)) (size - here))
    else if s.inbound.length < header + size then (s, [])
    else
      let payload := (s.inbound.drop header).take size
      let r := (s.hold (s.inbound.drop (header + size)) s.skipping).message (word s.inbound 4) payload
      let r' := drain r.1
      (r'.1, r.2 ++ r'.2)
termination_by s.inbound.length
decreasing_by
  all_goals
    simp only [message_inbound, hold, header, List.length_drop] at *
    omega

/-- The bytes of one `MSG_MAIN_AGENT_DATA`: a piece of a message rather than a
message. -/
def receive (s : Agent) (body : List UInt8) : Agent × List Event :=
  let skipped := min s.skipping body.length
  drain (s.hold (s.inbound ++ body.drop skipped) (s.skipping - skipped))

/-! ## What the session does with it -/

inductive Op where
  | connected (tokens : UInt32)
  | disconnected
  | addTokens (tokens : UInt32)
  | nextPiece
  | offerClipboard (text : Text)
  | requestMonitors (monitors : List Monitor)
  | receive (body : List UInt8)
deriving DecidableEq, Repr

def step (s : Agent) : Op → Agent
  | .connected tokens => s.connected tokens
  | .disconnected => s.disconnected
  | .addTokens tokens => s.addTokens tokens
  | .nextPiece => s.nextPiece.1
  | .offerClipboard text => s.offerClipboard text
  | .requestMonitors monitors => s.requestMonitors monitors
  | .receive body => (s.receive body).1

/-- The agent after any calls, from a state of it. -/
def after (s : Agent) (ops : List Op) : Agent := ops.foldl step s

end Agent

end Vento.Spice
