import Vento.Lib.Comp
import Vento.Rfb.Proto
/-!
# The security handshake

`handshake_security` of `rfb/src/security.rs`, with VeNCrypt's and the TLS upgrade
of `transport.rs`, against a server that sends what it likes. What the handshake
does is kept in a log: what it writes, when it starts TLS and what it asks.

The TLS library and the cipher are not part of the repository: `Far` has what
the code uses of them, and how much of the server's bytes had already arrived
when TLS was to start. A write that fails ends the handshake as a read that
fails does, and is left out. So is the status shown while the server decides.
-/

namespace Vento.Rfb

open Vento.Lib Parser

/-- What a connection accepts. -/
inductive Security where
  | prefer
  | require
  | plain
deriving DecidableEq, Repr

structure Version where
  major : UInt8
  minor : UInt8
deriving DecidableEq, Repr

namespace Version

def v3_3 : Version := ⟨3, 3⟩
def v3_7 : Version := ⟨3, 7⟩
def v3_8 : Version := ⟨3, 8⟩

/-- `self >= other`, by the fields in order. -/
def atLeast (v other : Version) : Bool := v.major > other.major || (v.major == other.major && v.minor ≥ other.minor)

end Version

structure Credentials where
  user : Text
  password : Text
deriving DecidableEq, Repr

/-- The far end's identity, once TLS is up. -/
structure Peer where
  fingerprint : String
  description : String
deriving DecidableEq, Repr

inductive Effect where
  | wrote (bytes : List UInt8)
  /-- The security type was agreed or dictated, and is run. -/
  | runs (kind : UInt8)
  /-- TLS was started. -/
  | clientHello (bytes : List UInt8)
  | askedCredentials (needsUser : Bool)
  | askedTrust (fingerprint : String) (answer : Bool)
deriving DecidableEq, Repr

/-- The two questions of a handshake. An answer may depend on all that happened. -/
structure Ask where
  credentials : List Effect → Bool → Option Credentials
  trust : List Effect → String → Bool

structure Far where
  /-- `Reader::buffered` when TLS is to start. -/
  ahead : Nat
  /-- The ClientHello for a server's name. -/
  hello : String → Except String (List UInt8)
  /-- The rest of the TLS handshake: the certificate's fingerprint, the
  description, and what the server then sends inside. -/
  complete : List UInt8 → Except Error (Option String × String × List UInt8)
  /-- A DES block under a key. -/
  des : List UInt8 → List UInt8 → List UInt8

/-- The connection: what the server still sends, at the current layer. -/
structure Wire where
  input : List UInt8
  log : List Effect
  peer : Option Peer
deriving DecidableEq, Repr

abbrev Handshake := Comp Failure Wire

namespace Handshake

/-! ## The steps -/

def read {α : Type} (p : Reader α) : Handshake α := fun wire =>
  match p wire.input with
  | .ok (a, rest) => (.ok a, { wire with input := rest })
  | .error f => (.error f, wire)

def log (e : Effect) : Handshake Unit := fun wire => (.ok (), { wire with log := wire.log ++ [e] })

def write (bytes : List UInt8) : Handshake Unit := log (.wrote bytes)

def fail {α : Type} (e : Error) : Handshake α := fun wire => (.error (.error e), wire)

def askCredentials (ask : Ask) (needsUser : Bool) : Handshake (Option Credentials) := fun wire =>
  (.ok (ask.credentials wire.log needsUser), { wire with log := wire.log ++ [.askedCredentials needsUser] })

def askTrust (ask : Ask) (fingerprint : String) : Handshake Bool := fun wire =>
  let answer := ask.trust wire.log fingerprint
  (.ok answer, { wire with log := wire.log ++ [.askedTrust fingerprint answer] })

/-! ## Choosing a type -/

def secInvalid : UInt8 := 0
def secNone : UInt8 := 1
def secVncAuth : UInt8 := 2
def secVencrypt : UInt8 := 19

/-- `{:?}` of a list of numbers. -/
def listed (ns : List Nat) : String := toString ns

/-- Which of the offered types to use: VeNCrypt first wherever allowed. -/
def choose (offered : List UInt8) (policy : Security) : Except Error UInt8 :=
  if policy ≠ .plain ∧ offered.contains secVencrypt then .ok secVencrypt
  else if policy = .require then
    .error (.unsupported ("this connection requires TLS and the server does not offer VeNCrypt (it offers " ++
      "security types " ++ listed (offered.map UInt8.toNat) ++ ")"))
  else if offered.contains secVncAuth then .ok secVncAuth
  else if offered.contains secNone then .ok secNone
  else .error (.unsupported ("the server offers only security types " ++ listed (offered.map UInt8.toNat) ++
    ", and this client speaks None, VncAuth and VeNCrypt"))

/-- The refusal that the server gives a reason for. -/
def refused {α : Type} : Handshake α := do fail (.refused (String.ofList (← read string)))

/-- The type to run: one of the server's list from 3.7 on, and before that the
low byte of the word the server sends. -/
def securityType (version : Version) (policy : Security) : Handshake UInt8 :=
  if version.atLeast .v3_7 then do
    let count ← read u8
    if count = 0 then refused
    else
      let offered ← read (bytes count.toNat)
      match choose offered policy with
      | .error e => fail e
      | .ok chosen => do
        write [chosen]
        return chosen
  else if policy = .require then
    fail (.unsupported "this connection requires TLS, and RFB 3.3 has no security type that offers it")
  else do
    let kind ← read u32
    if kind = secInvalid.toNat then refused else return UInt8.ofNat kind

/-! ## VncAuth and Plain -/

def reverseBits (b : UInt8) : UInt8 :=
  (List.range 8).foldl (fun r i => (r <<< 1) ||| ((b >>> UInt8.ofNat i) &&& 1)) 0

/-- DES over the two blocks of the challenge, keyed with the first eight bytes of
the password, each with its bits reversed. -/
def vncAuth (des : List UInt8 → List UInt8 → List UInt8) (password : Text) (challenge : List UInt8) : List UInt8 :=
  let bytes := ((toLatin1 password).take 8).map reverseBits
  let key := bytes ++ List.replicate (8 - bytes.length) 0
  des key (challenge.take 8) ++ des key (challenge.drop 8)

def vncAuthExchange (far : Far) (ask : Ask) : Handshake Unit := do
  let challenge ← read (bytes 16)
  match ← askCredentials ask false with
  | none => fail .cancelled
  | some credentials => write (vncAuth far.des credentials.password challenge)

def plainExchange (ask : Ask) : Handshake Unit := do
  match ← askCredentials ask true with
  | none => fail .cancelled
  | some credentials =>
    let user := toLatin1 credentials.user
    let password := toLatin1 credentials.password
    write (toBeBytes 4 user.length)
    write (toBeBytes 4 password.length)
    write user
    write password

/-! ## VeNCrypt -/

def vencryptX509None : Nat := 260
def vencryptX509Vnc : Nat := 261
def vencryptX509Plain : Nat := 262

/-- The first of the three that is offered: one that authenticates this client
before one that does not. -/
def pickSubtype (offered : List Nat) : Handshake Nat :=
  match [vencryptX509Vnc, vencryptX509Plain, vencryptX509None].find? offered.contains with
  | none => fail (.unsupported ("the server offers VeNCrypt sub-types " ++ listed offered ++
      ", and this client speaks the X.509 ones (260, 261, 262). 257–259 are anonymous TLS, which this client's " ++
      "TLS stack has no key exchange for"))
  | some chosen => do
    write (toBeBytes 4 chosen)
    return chosen

/-- VeNCrypt 0.2 up to the sub-type. -/
def subtype : Handshake Nat := do
  let major ← read u8
  let minor ← read u8
  if major = 0 ∧ minor < 2 then fail (.unsupported s!"VeNCrypt {major}.{minor}; this client speaks 0.2")
  else
    write [0]
    write [2]
    let ack ← read u8
    if ack ≠ 0 then fail (.refused "the server refused VeNCrypt 0.2")
    else
      let count ← read u8
      if count = 0 then fail (.refused "the server offers no VeNCrypt sub-types")
      else
        let offered ← read (repeatM count.toNat (fun offered => do return offered ++ [← u32]) [])
        pickSubtype offered

/-- The rest of the TLS handshake, on the socket. -/
def completeTls (far : Far) : Handshake Unit := fun wire =>
  match far.complete wire.input with
  | .error e => (.error (.error e), wire)
  | .ok (none, _, _) => (.error (.error (.protocol "the server sent no certificate")), wire)
  | .ok (some fingerprint, description, inside) =>
    (.ok (), { wire with input := inside, peer := some ⟨fingerprint, description⟩ })

/-- Wraps the connection in TLS. The server's acknowledgement of the sub-type is
a plain byte after the ClientHello. -/
def startTls (far : Far) (host : String) (chosen : Nat) : Handshake Unit :=
  if far.ahead ≠ 0 then fail (.protocol s!"{far.ahead} bytes arrived before the TLS handshake")
  else
    match far.hello host with
    | .error e => fail (.protocol s!"TLS: {e}")
    | .ok hello => do
      log (.clientHello hello)
      let ack ← read u8
      if ack = 0 then fail (.refused s!"the server refused VeNCrypt sub-type {chosen}")
      else completeTls far

def peerFingerprint : Handshake String := fun wire =>
  match wire.peer with
  | some peer => (.ok peer.fingerprint, wire)
  | none => (.error (.error (.protocol "TLS came up without a certificate")), wire)

/-- The authentication of a sub-type, inside the tunnel. -/
def subtypeExchange (far : Far) (ask : Ask) (chosen : Nat) : Handshake String :=
  if chosen = vencryptX509None then return "None (VeNCrypt)"
  else if chosen = vencryptX509Vnc then do
    vncAuthExchange far ask
    return "VNC password (VeNCrypt)"
  else do
    plainExchange ask
    return "User name and password (VeNCrypt)"

/-- Up to the certificate, which nothing the user enters has part in. -/
def tunnel (far : Far) (host : String) : Handshake (Nat × String) := do
  let chosen ← subtype
  startTls far host chosen
  return (chosen, ← peerFingerprint)

def vencrypt (far : Far) (host : String) (ask : Ask) : Handshake String := do
  let (chosen, fingerprint) ← tunnel far host
  -- Before the sub-type runs, which is where a password would go.
  if !(← askTrust ask fingerprint) then fail .untrusted
  else subtypeExchange far ask chosen

/-! ## The handshake -/

def authenticate (far : Far) (host : String) (ask : Ask) (kind : UInt8) : Handshake String :=
  if kind = secNone then return "None"
  else if kind = secVncAuth then do
    vncAuthExchange far ask
    return "VNC password"
  else if kind = secVencrypt then vencrypt far host ask
  else fail (.unsupported s!"security type {kind}")

/-- The reason for a failure, from 3.8 on: `string().unwrap_or_default()`. -/
def reason (version : Version) : Handshake Text := fun wire =>
  if version.atLeast .v3_8 then
    match string wire.input with
    | .ok (text, rest) => (.ok text, { wire with input := rest })
    | .error _ => (.ok [], wire)
  else (.ok [], wire)

/-- 3.3 and 3.7 send no result for `None`; 3.8 always does. -/
def securityResult (version : Version) (kind : UInt8) : Handshake Unit :=
  if version.atLeast .v3_8 ∨ kind ≠ secNone then do
    let result ← read u32
    if result = 0 then return ()
    else
      let why ← reason version
      fail (.authFailed (if why = [] then
        if kind = secNone then "The server refused the connection." else "The password was not accepted."
      else String.ofList why))
  else return ()

/-- Negotiates a security type, runs it and reads the result; the description of
what was run. -/
def handshakeSecurity (far : Far) (version : Version) (policy : Security) (host : String) (ask : Ask) :
    Handshake String := do
  let kind ← securityType version policy
  log (.runs kind)
  let description ← authenticate far host ask kind
  securityResult version kind
  return description

end Handshake

end Vento.Rfb
