import Vento.Lib.Runs
import Vento.Rustdesk.Crypto
/-!
# A session up to its pictures

`rustdesk/src/client.rs`: the key exchange (`secure`), the questions it leaves, the logins, and the
loop that takes the peer's messages, with the thread that reads them while the password prompt is
open. Every step is one thread's; what the peer sends, what the user answers and what the system
calls come to is said by the action.

The thread's pass through its loop is three steps: it looks whether the prompt was answered, waits
for a frame to begin, and reads that frame.
-/

namespace Vento.Rustdesk

/-! ## Messages -/

structure Delay where
  fromClient : Bool
  time : Int
  lastDelay : UInt32
deriving DecidableEq, Repr

inductive Message where
  /-- One with nothing in it. -/
  | empty
  | signedId (id : List UInt8)
  | hash (hash : Hash)
  | testDelay (delay : Delay)
  /-- `LoginResponse`: accepted, with how many displays the peer has and the one it captures. -/
  | peerInfo (displays : Nat) (current : Int)
  /-- `LoginResponse`: refused, or for now. -/
  | loginError (why : String)
  | loginNothing
  | closeReason (why : String)
  /-- Pictures, cursors, the clipboard, sound and the rest, none of which ends anything. -/
  | other (n : Nat)
deriving DecidableEq, Repr

inductive ReadError where
  | timedOut
  | failed
deriving DecidableEq, Repr

/-- What a read gave. -/
abbrev Item := Except ReadError Message

instance : DecidableEq Item
  | .ok a, .ok b => decidable_of_iff (a = b) (by simp)
  | .error a, .error b => decidable_of_iff (a = b) (by simp)
  | .ok _, .error _ => isFalse nofun
  | .error _, .ok _ => isFalse nofun

inductive LoginError where
  | password
  | wait
  | fatal
deriving DecidableEq, Repr

def loginError (why : String) : LoginError :=
  if why = "Wrong Password" ∨ why = "Empty Password" then .password
  else if why = "No Password Access" then .wait
  else .fatal

/-- A message that answers an open prompt. -/
def endsThePrompt : Message → Bool
  | .peerInfo _ _ => true
  | .loginError why => loginError why != .password
  | .closeReason _ => true
  | _ => false

/-! ## The key exchange -/

inductive Verified where
  | encrypted (peerKey : Key) (kxVersion : UInt32)
  | clear (why : String)
deriving DecidableEq

/-- What was done and asked, in order. -/
inductive Event where
  /-- The empty message, or the empty `PublicKey` after the peer has offered a key. -/
  | declined (expectsPublicKey : Bool)
  /-- The session key, sealed to a box key, and the version picked. -/
  | sealed (box : Key) (boxPk : Key) (key : List UInt8) (kxVersion : UInt32)
  /-- Both directions of the socket have a cipher. -/
  | ciphers (keys : SessionKeys)
  | trusted (fingerprint : String) (answer : Bool)
  | unverified (why : String) (answer : Bool)
  | login (digest : List UInt8)
deriving DecidableEq

structure Config where
  address : String
  key : List Char
  password : Option (List UInt8)

section
variable (c : Sodium) (config : Config)

/-- The server's introduction: the long-term key it vouches for, or why there is none. -/
def vouched (serverKey : Key) (signedIdPk : List UInt8) : Except String Key :=
  if signedIdPk = [] then .error "The rendezvous server did not vouch for a key."
  else
    match openIdPk c signedIdPk serverKey config.address with
    | .error e => .error ("The rendezvous server's introduction did not check out: " ++ protocolText e ++ ".")
    | .ok signed => .ok signed.key

/-- Tells the peer that there will be no key. -/
def inTheClear (why : String) (expectsPublicKey sent : Bool) : Except Error (Verified × List Event) :=
  if sent then .ok (.clear why, [.declined expectsPublicKey]) else .error .io

/-- The session key, sealed to the peer's box key; what follows it is encrypted both ways. -/
def sealTo (peerKey : Key) (box : Signed) (fresh : Fresh) (sent : Bool) : Except Error (Verified × List Event) := do
  let key ← sealSessionKey c fresh box.key
  let picked := kxVersionFor box.kxVersion
  let keys ← sessionKeys c fresh.session ⟨fresh.boxPk, box.key, box.kxVersion, picked⟩
  if sent then return (.encrypted peerKey picked, [.sealed box.key fresh.boxPk key picked, .ciphers keys])
  else .error .io

/-- The key exchange; `next` is the peer's first message, which is read only once the introduction
has checked out, and `sent` whether the answer could be sent. -/
def secure (signedIdPk : List UInt8) (next : Item) (fresh : Fresh) (sent : Bool) :
    Except Error (Verified × List Event) :=
  match configuredKey config.key with
  | .error e => .error e
  | .ok serverKey =>
    match vouched c config serverKey signedIdPk with
    | .error why => inTheClear why false sent
    | .ok peerKey =>
      match next with
      | .error _ => .error .io
      | .ok (.signedId id) =>
        match openIdPk c id peerKey config.address with
        | .error e =>
          inTheClear ("The machine's key is not the one it was vouched for: " ++ protocolText e ++ ".") true sent
        | .ok box => sealTo c peerKey box fresh sent
      | .ok _ => inTheClear "The machine offered no key of its own." false sent

end

/-! ## The threads -/

/-- What a password prompt came to. -/
inductive Prompted where
  | password (password : List UInt8)
  | withdrawn
  | cancelled
deriving DecidableEq

/-- Where the protocol thread is. -/
inductive Pc where
  /-- Reached by id, with the server's introduction. -/
  | dialled (signedIdPk : List UInt8)
  | direct
  | hash
  | question (hash : Hash)
  /-- In `credentials_or_withdrawn`. -/
  | asking (hash : Hash)
  /-- The prompt is answered, the reading thread still to be joined. -/
  | joining (hash : Hash) (answer : Prompted)
  | loop (hash : Hash)
  | finished (e : Error)
deriving DecidableEq

/-- Where the thread that reads during a prompt is. -/
inductive Thread where
  | none
  | starting
  | check
  | polling
  | frame
  | finished
deriving DecidableEq, Repr

structure Session where
  pc : Pc
  verified : Option Verified
  /-- What was read during a prompt, for the loop. -/
  early : List Item
  thread : Thread
  /-- What the thread has read. -/
  read : List Item
  fired : Bool
  answered : Bool
  log : List Event
  /-- Read since the login, by either thread. -/
  received : List Item
  /-- Taken by the loop, the timing messages apart. -/
  handled : List Item
  echoed : List Delay
  /-- A frame is read in part. -/
  halfRead : Bool
  /-- A frame was read from the middle of another. -/
  torn : Bool

inductive Act where
  | secured (next : Item) (fresh : Fresh) (sent : Bool)
  | greeted (sent : Bool)
  | read (item : Item)
  | question (answer : Bool)
  | take
  /-- The read timeout cannot be set. -/
  | fails
  | answer (password : List UInt8)
  | cancel
  | withdrawn
  | spawn (ok : Bool)
  | check
  /-- `arriving`: a frame has begun, or not yet, or the socket fails. -/
  | poll (arriving : Option Bool)
  | frame (item : Item)
  | join (ok : Bool)

namespace Session

def start (introduction : Option (List UInt8)) : Session where
  pc := introduction.elim .direct .dialled
  verified := none
  early := []
  thread := .none
  read := []
  fired := false
  answered := false
  log := []
  received := []
  handled := []
  echoed := []
  halfRead := false
  torn := false

variable (c : Sodium) (config : Config)

def login (s : Session) (hash : Hash) (password : List UInt8) : Session :=
  { s with log := s.log ++ [.login (loginHash c password hash)] }

/-- `ask_password`, up to the question. -/
def ask (s : Session) (hash : Hash) : Session :=
  { s with pc := .asking hash, thread := .starting, read := [], fired := false, answered := false }

def testDelay (s : Session) (delay : Delay) : Session :=
  if delay.fromClient then s else { s with echoed := s.echoed ++ [delay] }

/-- The question the handshake left, and whether the session goes on; a direct one has none. -/
def asks (answer : Bool) : Option Verified → Bool × List Event
  | some (.encrypted peerKey _) => (answer, [.trusted (fingerprint c peerKey) answer])
  | some (.clear why) => (answer, [.unverified why answer])
  | none => (true, [])

/-- The question, and the first login. -/
def agree (s : Session) (hash : Hash) (answer : Bool) : Session :=
  let asked := asks c answer s.verified
  let s := { s with log := s.log ++ asked.2 }
  if !asked.1 then { s with pc := .finished .cancelled }
  else
    let password := config.password.getD []
    let s := s.login c hash password
    if password = [] then s.ask hash else { s with pc := .loop hash }

/-- What the loop does with a message. -/
def handleMessage (s : Session) (hash : Hash) : Message → Session
  | .peerInfo displays current =>
    if current.toNat < displays then s else { s with pc := .finished (.protocol "the peer has no display") }
  | .loginError why =>
    match loginError why with
    | .password => s.ask hash
    | .wait => s
    | .fatal => { s with pc := .finished (.refused why) }
  | .closeReason why => { s with pc := .finished (.refused why) }
  | _ => s

def handle (s : Session) (hash : Hash) : Item → Session
  | .error e => { s with
      handled := s.handled ++ [.error e]
      pc := .finished (match e with | .timedOut => .silent | .failed => .io) }
  | .ok (.testDelay delay) => s.testDelay delay
  | .ok m => ({ s with handled := s.handled ++ [.ok m] } : Session).handleMessage hash m

/-- A read that failed leaves what it had read of its frame. -/
def receives (s : Session) (item : Item) : Session :=
  { s with received := s.received ++ [item], halfRead := match item with | .ok _ => false | .error _ => true }

/-- Something for the loop, and if it settles the login, the prompt's end. -/
def keeps (s : Session) (item : Item) (settles : Bool) : Session :=
  { s with read := s.read ++ [item], fired := s.fired || settles, thread := if settles then .finished else .check }

/-- What the thread does with what it read. -/
def heard (s : Session) : Item → Session
  | .error e => s.keeps (.error e) true
  | .ok (.testDelay delay) => { s.testDelay delay with thread := .check }
  | .ok m => s.keeps (.ok m) (endsThePrompt m)

/-- After the thread's end: what it read is the loop's, and the answer is used. -/
def joined (s : Session) (hash : Hash) (answer : Prompted) (ok : Bool) : Session :=
  let s := { s with early := s.early ++ s.read, read := [], thread := .none }
  if !ok then { s with pc := .finished .io }
  else
    match answer with
    | .password password => { s.login c hash password with pc := .loop hash }
    | .withdrawn => { s with pc := .loop hash }
    | .cancelled => { s with pc := .finished .cancelled }

def step (s : Session) : Act → Option Session
  | .secured next fresh sent =>
    match s.pc with
    | .dialled signedIdPk =>
      match secure c config signedIdPk next fresh sent with
      | .error e => some { s with pc := .finished e }
      | .ok (verified, events) => some { s with pc := .hash, verified := some verified, log := s.log ++ events }
    | _ => none
  | .greeted sent =>
    match s.pc with
    | .direct => some { s with pc := if sent then .hash else .finished .io }
    | _ => none
  | .read item =>
    match s.pc with
    | .hash =>
      match item with
      | .error _ => some { s with pc := .finished .io }
      | .ok (.hash hash) => some { s with pc := .question hash }
      -- anything before the Hash is only logged
      | .ok _ => some s
    | .loop hash =>
      if s.early = [] then
        some ((({ s with torn := s.torn || s.halfRead } : Session).receives item).handle hash item)
      else none
    | _ => none
  | .question answer =>
    match s.pc with
    | .question hash => some (s.agree c config hash answer)
    | _ => none
  | .take =>
    match s.pc, s.early with
    | .loop hash, item :: early => some (({ s with early } : Session).handle hash item)
    | _, _ => none
  | .fails =>
    match s.pc with
    | .loop _ => some { s with pc := .finished .io }
    | _ => none
  | .answer password =>
    match s.pc with
    | .asking hash =>
      -- an empty answer is asked for again
      if password = [] then some s else some { s with pc := .joining hash (.password password), answered := true }
    | _ => none
  | .cancel =>
    match s.pc with
    | .asking hash => some { s with pc := .joining hash .cancelled, answered := true }
    | _ => none
  | .withdrawn =>
    match s.pc with
    | .asking hash => if s.fired then some { s with pc := .joining hash .withdrawn, answered := true } else none
    | _ => none
  | .spawn ok => if s.thread = .starting then some { s with thread := if ok then .check else .none } else none
  | .check => if s.thread = .check then some { s with thread := if s.answered then .finished else .polling } else none
  | .poll arriving =>
    if s.thread = .polling then
      match arriving with
      | some false => some { s with thread := .check }
      | some true => some { s with thread := .frame, halfRead := true, torn := s.torn || s.halfRead }
      | none => some (({ s with received := s.received ++ [.error .failed] } : Session).keeps (.error .failed) true)
    else none
  | .frame item => if s.thread = .frame then some ((s.receives item).heard item) else none
  | .join ok =>
    match s.pc with
    | .joining hash answer =>
      if s.thread = .finished ∨ s.thread = .none then some (s.joined c hash answer ok) else none
    | _ => none

/-- What a step can do. -/
inductive Stepped (s : Session) : Act → Session → Prop
  | refused {signedIdPk : List UInt8} {next : Item} {fresh : Fresh} {sent : Bool} {e : Error}
      (hpc : s.pc = .dialled signedIdPk) (h : secure c config signedIdPk next fresh sent = .error e) :
      Stepped s (.secured next fresh sent) { s with pc := .finished e }
  | secured {signedIdPk : List UInt8} {next : Item} {fresh : Fresh} {sent : Bool} {v : Verified} {events : List Event}
      (hpc : s.pc = .dialled signedIdPk) (h : secure c config signedIdPk next fresh sent = .ok (v, events)) :
      Stepped s (.secured next fresh sent) { s with pc := .hash, verified := some v, log := s.log ++ events }
  | greeted {sent : Bool} (hpc : s.pc = .direct) :
      Stepped s (.greeted sent) { s with pc := if sent then .hash else .finished .io }
  | unread {e : ReadError} (hpc : s.pc = .hash) : Stepped s (.read (.error e)) { s with pc := .finished .io }
  | challenged {hash : Hash} (hpc : s.pc = .hash) :
      Stepped s (.read (.ok (.hash hash))) { s with pc := .question hash }
  | unhashed {m : Message} (hpc : s.pc = .hash) : Stepped s (.read (.ok m)) s
  | read {hash : Hash} {item : Item} (hpc : s.pc = .loop hash) (he : s.early = []) :
      Stepped s (.read item)
        ((({ s with torn := s.torn || s.halfRead } : Session).receives item).handle hash item)
  | question {hash : Hash} {answer : Bool} (hpc : s.pc = .question hash) :
      Stepped s (.question answer) (s.agree c config hash answer)
  | take {hash : Hash} {item : Item} {early : List Item} (hpc : s.pc = .loop hash) (he : s.early = item :: early) :
      Stepped s .take (({ s with early } : Session).handle hash item)
  | fails {hash : Hash} (hpc : s.pc = .loop hash) : Stepped s .fails { s with pc := .finished .io }
  | again {hash : Hash} (hpc : s.pc = .asking hash) : Stepped s (.answer []) s
  | answer {hash : Hash} {password : List UInt8} (hpc : s.pc = .asking hash) :
      Stepped s (.answer password) { s with pc := .joining hash (.password password), answered := true }
  | cancel {hash : Hash} (hpc : s.pc = .asking hash) :
      Stepped s .cancel { s with pc := .joining hash .cancelled, answered := true }
  | withdrawn {hash : Hash} (hpc : s.pc = .asking hash) (hf : s.fired = true) :
      Stepped s .withdrawn { s with pc := .joining hash .withdrawn, answered := true }
  | spawn {ok : Bool} (ht : s.thread = .starting) :
      Stepped s (.spawn ok) { s with thread := if ok then .check else .none }
  | check (ht : s.thread = .check) :
      Stepped s .check { s with thread := if s.answered then .finished else .polling }
  | quiet (ht : s.thread = .polling) : Stepped s (.poll (some false)) { s with thread := .check }
  | begins (ht : s.thread = .polling) :
      Stepped s (.poll (some true)) { s with thread := .frame, halfRead := true, torn := s.torn || s.halfRead }
  | broken (ht : s.thread = .polling) :
      Stepped s (.poll none)
        (({ s with received := s.received ++ [.error .failed] } : Session).keeps (.error .failed) true)
  | frame {item : Item} (ht : s.thread = .frame) : Stepped s (.frame item) ((s.receives item).heard item)
  | join {hash : Hash} {answer : Prompted} {ok : Bool} (hpc : s.pc = .joining hash answer)
      (ht : s.thread = .finished ∨ s.thread = .none) : Stepped s (.join ok) (s.joined c hash answer ok)

theorem stepped {s s' : Session} {a : Act} (h : s.step c config a = some s') : Stepped c config s a s' := by
  cases a with
  | secured next fresh sent =>
    unfold step at h
    dsimp only at h
    split at h
    · rename_i signedIdPk hpc
      split at h
      · rename_i e hsec
        cases h
        exact .refused hpc hsec
      · rename_i v events hsec
        cases h
        exact .secured hpc hsec
    · cases h
  | greeted sent =>
    unfold step at h
    dsimp only at h
    split at h
    · cases h
      exact .greeted ‹_›
    · cases h
  | read item =>
    unfold step at h
    dsimp only at h
    split at h
    · rename_i hpc
      split at h
      · cases h
        exact .unread hpc
      · cases h
        exact .challenged hpc
      · cases h
        exact .unhashed hpc
    · rename_i hash hpc
      split at h
      · cases h
        exact .read hpc ‹_›
      · cases h
    · cases h
  | question answer =>
    unfold step at h
    dsimp only at h
    split at h
    · cases h
      exact .question ‹_›
    · cases h
  | take =>
    unfold step at h
    dsimp only at h
    split at h
    · rename_i hash item early hpc he
      cases h
      exact .take hpc he
    · cases h
  | fails =>
    unfold step at h
    dsimp only at h
    split at h
    · cases h
      exact .fails ‹_›
    · cases h
  | answer password =>
    unfold step at h
    dsimp only at h
    split at h
    · rename_i hash hpc
      split at h
      · rename_i hp
        cases h
        rw [hp]
        exact .again hpc
      · cases h
        exact .answer hpc
    · cases h
  | cancel =>
    unfold step at h
    dsimp only at h
    split at h
    · cases h
      exact .cancel ‹_›
    · cases h
  | withdrawn =>
    unfold step at h
    dsimp only at h
    split at h
    · split at h
      · cases h
        exact .withdrawn ‹_› ‹_›
      · cases h
    · cases h
  | spawn ok =>
    unfold step at h
    dsimp only at h
    split at h
    · cases h
      exact .spawn ‹_›
    · cases h
  | check =>
    unfold step at h
    dsimp only at h
    split at h
    · cases h
      exact .check ‹_›
    · cases h
  | poll arriving =>
    unfold step at h
    dsimp only at h
    split at h
    · rename_i ht
      split at h
      · cases h
        exact .quiet ht
      · cases h
        exact .begins ht
      · cases h
        exact .broken ht
    · cases h
  | frame item =>
    unfold step at h
    dsimp only at h
    split at h
    · cases h
      exact .frame ‹_›
    · cases h
  | join ok =>
    unfold step at h
    dsimp only at h
    split at h
    · rename_i hash answer hpc
      split at h
      · cases h
        exact .join hpc ‹_›
      · cases h
    · cases h

end Session

end Vento.Rustdesk
