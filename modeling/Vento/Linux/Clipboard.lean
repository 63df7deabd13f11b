import Vento.Lib.Bytes
import Vento.Lib.Str
/-!
# The local clipboard under X11

`linux/src/gui/clipboard`: the window's side (`mod.rs`), the text formats (`text.rs`) and the thread that talks to the X server
(`x11.rs`). A step is one event of the server's, one command of the window's, a look at the deadlines, or the window taking an
answer, in any order; what the server answers the requests that are waited for with is any `Reply`. Times are in milliseconds.
-/

namespace Vento.Linux.Clipboard

open Vento.Lib

/-! ## Text -/

/-- The atoms that are interned: what this side uses, and the text formats. -/
inductive Name
  | clipboard
  | targets
  | timestamp
  | incr
  | clipboardManager
  | saveTargets
  | ventoClipboard
  | ventoClipboardTime
  | utf8String
  | plainUtf8
  | plainUTF8
  | string
  | text
  | plain
deriving DecidableEq

def maxText : Nat := 16 * 2 ^ 20

def readOrder : List Name := [.utf8String, .plainUtf8, .plainUTF8, .string, .text, .plain]

inductive Encoding
  | utf8
  | latin1
deriving DecidableEq

/-- Each name, the property type a requestor is given it as, and the encoding. -/
def servedAs : List (Name × Name × Encoding) :=
  [(.utf8String, .utf8String, .utf8), (.plainUtf8, .plainUtf8, .utf8), (.plainUTF8, .plainUTF8, .utf8), (.plain, .plain, .utf8),
    (.text, .utf8String, .utf8), (.string, .string, .latin1)]

def best (offered : List Name) : Option Name := readOrder.find? fun want => want ∈ offered

def served (name : Name) : Option (Name × Encoding) := (servedAs.find? fun s => s.1 = name).map fun s => s.2

def latin1Byte (c : Char) : UInt8 := if c.toNat < 256 then UInt8.ofNat c.toNat else 63

def encode (text : Str) : Encoding → List UInt8
  | .utf8 => Str.bytes text
  | .latin1 => text.map latin1Byte

/-- The text out of what came as the type, if that is an atom that is known. -/
def decode (type : Option Name) (bytes : List UInt8) : Str :=
  let latin1 := bytes.map fun b => Char.ofNat b.toNat
  match Str.ofBytes? bytes with
  | some text => if type = some .string then latin1 else text
  | none => latin1

/-- The server's numbers for the atoms. -/
structure Atoms where
  get : Name → Nat
  name : Nat → Option Name
  name_get : ∀ n, name (get n) = some n
  get_pos : ∀ n, 0 < get n
  get_lt : ∀ n, get n < 2 ^ 32

/-! ## The window's side -/

/-- Why a read was asked for: to offer the text to the far end, to paste it, or both. -/
structure Why where
  offer : Bool
  paste : Bool
deriving DecidableEq

def Why.and (a b : Why) : Why := ⟨a.offer || b.offer, a.paste || b.paste⟩

structure Asked where
  why : Why
  time : Nat

def Asked.and (a b : Asked) : Asked := ⟨a.why.and b.why, max a.time b.time⟩

def fold (queued : Option Asked) (asked : Asked) : Option Asked := some (queued.elim asked fun q => q.and asked)

inductive Command
  | read (asked : Asked)
  | set (text : Str)
  | quit

/-- An answer to the window. `began` is for the theorems: in which step of the run the conversation that it came from began. -/
structure Answered where
  why : Why
  text : Option Str
  began : Nat

/-! ## The thread -/

def readDeadline : Nat := 2000

def handoff : Nat := 2000

def sendIdle : Nat := 10000

def oneProperty : Nat := 2 ^ 20

/-- Where a read is. -/
inductive Step
  | targets
  /-- A target asked for straight out, by its place in `blindTargets`. -/
  | blind (i : Nat)
  | data
  | incr (type : Nat) (buf : List UInt8)

def blindTargets : List Name := [.utf8String, .string]

structure Reading where
  why : Why
  deadline : Nat
  step : Step
  /-- The target last asked for. -/
  asked : Nat
  began : Nat

structure Owned where
  text : Str
  time : Nat

/-- A transfer to a requestor, in chunks. -/
structure Sending where
  requestor : Nat
  property : Nat
  type : Nat
  data : List UInt8
  offset : Nat
  ended : Bool
  progressAt : Nat

/-- After its next chunk. -/
def Sending.next (chunk now : Nat) (s : Sending) : Sending :=
  let last := min (s.offset + chunk) s.data.length
  { s with ended := s.offset = last, offset := last, progressAt := now }

/-- What is asked of the X server, of this window's properties and selections unless it names a window. -/
inductive Request
  | convertSelection (selection target property time : Nat)
  | setSelectionOwner (selection time : Nat)
  | appendProperty (property : Nat)
  | deleteProperty (property : Nat)
  /-- A property that is read and deleted. -/
  | takeProperty (property : Nat)
  | changeProperty (window property type : Nat) (data : List UInt8)
  | notify (requestor selection target property time : Nat)
  | listen (window : Nat) (on : Bool)
deriving DecidableEq

/-- What the server answers in a step, where it is asked. -/
structure Reply where
  now : Nat
  /-- A selection's owner, 0 where there is none. -/
  owner : Nat
  /-- A property's type, its bytes and whether there are more. -/
  property : Option (Nat × List UInt8 × Bool)
  /-- Whether a change of a property could be sent. -/
  sent : Bool

/-- `clock`, `answers` and `taken` are for the theorems: how many steps there were, all answers, and how many the window had. -/
structure Worker where
  window : Nat
  claiming : Option Str
  owned : Option Owned
  reading : Option Reading
  queued : Option Asked
  sending : List Sending
  chunk : Nat
  handingOff : Option Nat
  slot : Option (Option Str × Why)
  requests : List Request
  clock : Nat
  answers : List Answered
  taken : Nat

namespace Worker

variable (A : Atoms)

def new (window maximumRequestBytes : Nat) : Worker :=
  ⟨window, none, none, none, none, [], max (min oneProperty (maximumRequestBytes - 64)) 4096, none, none, [], 0, [], 0⟩

def request (r : Request) (w : Worker) : Worker := { w with requests := w.requests ++ [r] }

/-- `Link::answer`: the newest text, for every reason not yet taken. -/
def answer (began : Nat) (why : Why) (text : Option Str) (w : Worker) : Worker :=
  { w with slot := some (text, w.slot.elim why fun s => why.and s.2), answers := w.answers ++ [⟨why, text, began⟩] }

/-- The window's `take`. -/
def take (w : Worker) : Worker := { w with slot := none, taken := w.answers.length }

/-! ### Reading -/

def convert (target : Name) (w : Worker) : Worker :=
  let asks := fun r : Reading => { r with asked := A.get target }
  { w with reading := w.reading.map asks }.request
    (.convertSelection (A.get .clipboard) (A.get target) (A.get .ventoClipboard) 0)

def startRead (asked : Asked) (r : Reply) (w : Worker) : Worker :=
  match w.claiming.or (w.owned.map Owned.text) with
  | some text => w.answer w.clock asked.why (some text)
  | none =>
    if r.owner = 0 then w.answer w.clock asked.why none
    else { w with reading := some ⟨asked.why, asked.time + readDeadline, .targets, 0, w.clock⟩ }.convert A .targets

/-- Ends the read in hand, and starts the one queued. -/
def finish (text : Option Str) (r : Reply) (w : Worker) : Worker :=
  match w.reading with
  | none => w
  | some reading =>
    let w := { w with reading := none }.request (.deleteProperty (A.get .ventoClipboard))
    match w.queued with
    | some queued => { w with queued := none }.startRead A ⟨queued.why.and reading.why, queued.time⟩ r
    | none => w.answer reading.began reading.why text

def setStep (step : Step) (w : Worker) : Worker := { w with reading := w.reading.map fun r => { r with step := step } }

/-- The property that a conversion left on the window, and what is asked of the server for it. -/
def takeProperty (r : Reply) (w : Worker) : Worker × Option (Nat × List UInt8) :=
  let w := w.request (.takeProperty (A.get .ventoClipboard))
  match r.property with
  | none => (w, none)
  | some (type, bytes, more) =>
    if more then (w.request (.deleteProperty (A.get .ventoClipboard)), none)
    else if type = 0 then (w, none)
    else (w, some (type, bytes))

def blind (i : Nat) (r : Reply) (w : Worker) : Worker :=
  match blindTargets[i]? with
  | some target => (w.setStep (.blind i)).convert A target
  | none => w.finish A none r

/-- The names in a property's bytes, four to an atom. -/
def namesOf (bytes : List UInt8) : List Name :=
  ((chunks 4 bytes).filter fun c => c.length = 4).filterMap fun c => A.name (fromLeBytes c)

/-- The answer to the target asked for, with the property it was left on. -/
def received (r : Reply) (w : Worker) : Worker :=
  match w.takeProperty A r with
  | (w, some (type, bytes)) =>
    if type = A.get .incr then w.setStep (.incr 0 []) else w.finish A (some (decode (A.name type) bytes)) r
  | (w, none) => w.finish A none r

def selectionNotify (requestor selection target property : Nat) (r : Reply) (w : Worker) : Worker :=
  if requestor ≠ w.window ∨ selection ≠ A.get .clipboard then w
  else
    match w.reading with
    | none => w.request (.deleteProperty (A.get .ventoClipboard))
    | some reading =>
      if reading.asked ≠ target then w
      else
        match reading.step with
        | .targets =>
          if property = 0 then w.blind A 0 r
          else
            match w.takeProperty A r with
            | (w, taken) =>
              match best (taken.elim [] fun p => namesOf A p.2) with
              | some target => (w.setStep .data).convert A target
              | none => w.finish A none r
        | .blind i => if property = 0 then w.blind A (i + 1) r else w.received A r
        | .data => if property = 0 then w.finish A none r else w.received A r
        | .incr _ _ => w

/-- The next chunk of a transfer into the window. -/
def incomingChunk (r : Reply) (w : Worker) : Worker :=
  match w.takeProperty A r with
  | (w, none) => w
  | (w, some (type, bytes)) =>
    match w.reading.map Reading.step with
    | some (.incr t buf) =>
      if bytes = [] then w.finish A (some (decode (A.name t) buf)) r
      else
        let w := w.setStep (.incr type (buf ++ bytes))
        if maxText < (buf ++ bytes).length then w.finish A none r else w
    | _ => w

/-! ### Owning -/

/-- The timestamp has come. -/
def claim (time : Nat) (r : Reply) (w : Worker) : Worker :=
  match w.claiming with
  | none => w
  | some text =>
    let w := { w with claiming := none }.request (.setSelectionOwner (A.get .clipboard) time)
    { w with owned := if r.owner = w.window then some ⟨text, time⟩ else none }

structure SelectionRequest where
  requestor : Nat
  selection : Nat
  target : Nat
  property : Nat
  time : Nat

/-- `AtomEnum`. -/
def atomType : Nat := 4

def integerType : Nat := 19

def targetsBytes : List UInt8 :=
  ([Name.targets, .timestamp] ++ servedAs.map fun s => s.1).flatMap fun n => toLeBytes 4 (A.get n)

/-- Puts what is asked for on the requestor's property, or says no. -/
def convertFor (e : SelectionRequest) (property : Nat) (r : Reply) (w : Worker) : Worker × Bool :=
  match w.owned with
  | none => (w, false)
  | some owned =>
    if e.selection ≠ A.get .clipboard ∨ (e.time ≠ 0 ∧ e.time < owned.time) then (w, false)
    else if e.target = A.get .targets then
      (w.request (.changeProperty e.requestor property atomType (targetsBytes A)), r.sent)
    else if e.target = A.get .timestamp then
      (w.request (.changeProperty e.requestor property integerType (toLeBytes 4 owned.time)), r.sent)
    else
      match (A.name e.target).bind served with
      | none => (w, false)
      | some (type, encoding) =>
        let data := encode owned.text encoding
        if data.length ≤ w.chunk then (w.request (.changeProperty e.requestor property (A.get type) data), r.sent)
        else
          let w := (w.request (.listen e.requestor true)).request
            (.changeProperty e.requestor property (A.get .incr) (toLeBytes 4 data.length))
          if r.sent then
            let others := w.sending.filter fun s => ¬(s.requestor = e.requestor ∧ s.property = property)
            ({ w with sending := others ++ [⟨e.requestor, property, A.get type, data, 0, false, r.now⟩] }, true)
          else (w, false)

def selectionRequest (e : SelectionRequest) (r : Reply) (w : Worker) : Worker :=
  let property := if e.property = 0 then e.target else e.property
  match w.convertFor A e property r with
  | (w, delivered) => w.request (.notify e.requestor e.selection e.target (if delivered then property else 0) e.time)

/-- No longer listening to a requestor's properties. -/
def forget (requestor : Nat) (w : Worker) : Worker :=
  if w.sending.any fun s => s.requestor = requestor then w else w.request (.listen requestor false)

/-- A requestor deleted a property: the next chunk of its transfer. -/
def outgoingChunk (window atom : Nat) (r : Reply) (w : Worker) : Worker :=
  match w.sending.findIdx? fun s => s.requestor = window ∧ s.property = atom with
  | none => w
  | some i =>
    match w.sending[i]? with
    | none => w
    | some s =>
      if s.ended then { w with sending := w.sending.eraseIdx i }.forget s.requestor
      else
        let bytes := (s.data.drop s.offset).take w.chunk
        { w with sending := w.sending.set i (s.next w.chunk r.now) }.request
          (.changeProperty s.requestor s.property s.type bytes)

/-- Exiting: the text goes to a clipboard manager, if one runs. -/
def handOff (r : Reply) (w : Worker) : Worker :=
  match w.owned with
  | some owned =>
    if r.owner ≠ 0 then
      { w with handingOff := some (r.now + handoff) }.request
        (.convertSelection (A.get .clipboardManager) (A.get .saveTargets) (A.get .ventoClipboard) owned.time)
    else { w with handingOff := some r.now }
  | none => { w with handingOff := some r.now }

/-! ### The loop -/

def command (c : Command) (r : Reply) (w : Worker) : Worker :=
  match c with
  | .read asked => if w.reading.isSome then { w with queued := fold w.queued asked } else w.startRead A asked r
  | .set text => { w with claiming := some text }.request (.appendProperty (A.get .ventoClipboardTime))
  | .quit => w.handOff A r

inductive Event
  | selectionNotify (requestor selection target property : Nat)
  | selectionRequest (e : SelectionRequest)
  | selectionClear (selection time : Nat)
  | propertyNotify (window atom time : Nat) (deleted : Bool)

def event (e : Event) (r : Reply) (w : Worker) : Worker :=
  match e with
  | .selectionNotify requestor selection target property =>
    if w.handingOff.isSome ∧ selection = A.get .clipboardManager then { w with handingOff := some r.now }
    else w.selectionNotify A requestor selection target property r
  | .selectionRequest e => w.selectionRequest A e r
  | .selectionClear selection time =>
    if selection = A.get .clipboard ∧ w.owned.any (fun o => o.time ≤ time || time = 0) then { w with owned := none } else w
  | .propertyNotify window atom time deleted =>
    if window = w.window then
      if atom = A.get .ventoClipboardTime then w.claim A time r
      else if atom = A.get .ventoClipboard ∧ !deleted then
        match w.reading.map Reading.step with
        | some (.incr _ _) => w.incomingChunk A r
        | _ => w
      else w
    else if deleted then w.outgoingChunk window atom r
    else w

def expire (r : Reply) (w : Worker) : Worker :=
  let w := if w.reading.any fun reading => reading.deadline ≤ r.now then w.finish A none r else w
  let stalled := (w.sending.filter fun s => s.progressAt + sendIdle ≤ r.now).map Sending.requestor
  stalled.foldl (fun w requestor => w.forget requestor)
    { w with sending := w.sending.filter fun s => r.now < s.progressAt + sendIdle }

inductive Act
  | event (e : Event)
  | command (c : Command)
  | expire
  | take

def step (w : Worker) (a : Act × Reply) : Worker :=
  let w' := match a.1 with
    | .event e => w.event A e a.2
    | .command c => w.command A c a.2
    | .expire => w.expire A a.2
    | .take => w.take
  { w' with clock := w.clock + 1 }

end Worker

end Vento.Linux.Clipboard
