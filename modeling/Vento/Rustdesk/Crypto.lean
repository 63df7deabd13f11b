import Mathlib.Data.List.Basic
import Vento.Lib.Bytes
/-!
# The session's keys

`rustdesk/src/crypto.rs`: the chain that binds an id to the key a session is sealed to. The
signatures, the sealing and the hashes are libsodium's, the wire form of an `IdPk` protobuf's:
`Sodium` stands for them.
-/

namespace Vento.Rustdesk

open Vento.Lib

/-- Thirty-two bytes. -/
structure Key where
  bytes : List UInt8
  size : bytes.length = 32
deriving DecidableEq

/-- `try_into` of a slice. -/
def Key.of (bytes : List UInt8) : Option Key := if h : bytes.length = 32 then some ⟨bytes, h⟩ else none

inductive Error where
  | io
  | refused (why : String)
  | cancelled
  | protocol (what : String)
  | silent
deriving DecidableEq, Repr

/-- How the app words `Error::Protocol`. -/
def protocolText (what : String) : String := "The peer is not making sense: " ++ what

/-- What is signed: an id, a key, and the newest key exchange version the signer speaks. -/
structure IdPk where
  id : String
  pk : List UInt8
  kxVersion : UInt32
deriving DecidableEq, Repr

structure Sodium where
  /-- `crypto_sign_open`: the message, if the key signed it. -/
  signOpen : List UInt8 → Key → Option (List UInt8)
  /-- `IdPk::parse_from_bytes`. -/
  parseIdPk : List UInt8 → Except String IdPk
  /-- `crypto_box_easy`: a message, sealed to a key by a secret one. -/
  boxEasy : List UInt8 → Key → Key → Except String (List UInt8)
  /-- BLAKE2b-256 keyed with the first, over the parts. -/
  genericHash : Key → List (List UInt8) → Except String Key
  sha256 : List UInt8 → List UInt8

variable (c : Sodium)

/-! ## One link of the chain -/

structure Signed where
  key : Key
  kxVersion : UInt32
deriving DecidableEq

/-- Opens a signed message, and checks that the id in it is the dialled one; the error is what the
protocol got wrong. -/
def openIdPk (signed : List UInt8) (with_ : Key) (peerId : String) : Except String Signed :=
  if signed.length < 64 then .error "a signature shorter than a signature"
  else
    match c.signOpen signed with_ with
    | none => .error "the signature does not check out"
    | some opened =>
      match c.parseIdPk opened with
      | .error e => .error ("what was signed is not an IdPk: " ++ e)
      | .ok idPk =>
        if idPk.id ≠ peerId then .error ("signed for " ++ idPk.id ++ " rather than for " ++ peerId)
        else
          match Key.of idPk.pk with
          | none => .error "the key inside is not 32 bytes"
          | some key => .ok ⟨key, idPk.kxVersion⟩

/-! ## The session's keys -/

/-- A fresh key pair and a fresh session key. -/
structure Fresh where
  boxPk : Key
  boxSk : Key
  session : Key
deriving DecidableEq

def sealSessionKey (fresh : Fresh) (theirBoxPk : Key) : Except Error (List UInt8) :=
  match c.boxEasy fresh.session.bytes theirBoxPk fresh.boxSk with
  | .error e => .error (.protocol ("sealing the session key: " ++ e))
  | .ok sealed => .ok sealed

def kxVersionFor (advertised : UInt32) : UInt32 := min advertised 1

structure Transcript where
  initiatorPk : Key
  responderPk : Key
  advertised : UInt32
  picked : UInt32

structure SessionKeys where
  send : Key
  receive : Key
deriving DecidableEq

/-- One direction's key: 1 is what the initiator sends, 2 what the responder does. -/
def split (key : Key) (direction : UInt8) (t : Transcript) : Except Error Key :=
  -- the context is "rdkx-spl"
  match c.genericHash key [[0x72, 0x64, 0x6b, 0x78, 0x2d, 0x73, 0x70, 0x6c], [direction],
      toLeBytes 4 t.advertised.toNat, toLeBytes 4 t.picked.toNat, t.initiatorPk.bytes, t.responderPk.bytes] with
  | .error e => .error (.protocol ("deriving a session key: " ++ e))
  | .ok key => .ok key

def sessionKeys (key : Key) (t : Transcript) : Except Error SessionKeys :=
  if t.picked = 0 then .ok ⟨key, key⟩
  else if t.picked = 1 then do
    let send ← split c key 1 t
    let receive ← split c key 2 t
    return ⟨send, receive⟩
  else .error (.protocol ("unsupported key exchange version " ++ toString t.picked))

/-! ## Texts -/

def hexDigit (n : UInt8) : Char := if n < 10 then Char.ofNat (0x30 + n.toNat) else Char.ofNat (0x37 + n.toNat)

/-- The digest of a long-term key, as colon-separated pairs. -/
def fingerprint (key : Key) : String :=
  ":".intercalate ((c.sha256 key.bytes).map fun b => String.ofList [hexDigit (b / 16), hexDigit (b % 16)])

/-- `char::is_whitespace`. -/
def isWhitespace (ch : Char) : Bool :=
  let n := ch.toNat
  (9 ≤ n && n ≤ 13) || n == 0x20 || n == 0x85 || n == 0xa0 || n == 0x1680 || (0x2000 ≤ n && n ≤ 0x200a) ||
    n == 0x2028 || n == 0x2029 || n == 0x202f || n == 0x205f || n == 0x3000

/-- `str::trim`. -/
def trim (text : List Char) : List Char :=
  ((text.dropWhile isWhitespace).reverse.dropWhile isWhitespace).reverse

def alphabet : List Char := "ABCDEFGHIJKLMNOPQRSTUVWXYZabcdefghijklmnopqrstuvwxyz0123456789+/".toList

/-- The bits read and not yet written, and how many they are. -/
def base64From (acc : UInt32) (bits : Nat) : List Char → Except Error (List UInt8)
  | [] => .ok []
  | ch :: text =>
    match alphabet.findIdx? (· == ch) with
    | none => .error (.protocol "a rendezvous key that is not base64")
    | some value =>
      let acc := (acc <<< 6) ||| UInt32.ofNat value
      if bits + 6 ≥ 8 then do
        let out ← base64From acc (bits - 2) text
        return (acc >>> UInt32.ofNat (bits - 2)).toUInt8 :: out
      else base64From acc (bits + 6) text

/-- Standard base64, with padding and ASCII's whitespace ignored. -/
def base64 (text : List Char) : Except Error (List UInt8) :=
  base64From 0 0 (text.filter fun ch => ch != '=' && !(" \t\n\x0c\r".toList.contains ch))

/-- A rendezvous server's key in its text form. -/
def serverKey (text : List Char) : Except Error Key := do
  match Key.of (← base64 (trim text)) with
  | none => .error (.protocol "a rendezvous key that is not 32 bytes")
  | some key => return key

/-- The public network's. -/
def publicKey : List Char := "OeVuKk5nlHiXp+APNn0Y3pC1Iwpwn44JGqrQCsWqmBw=".toList

/-- The key a session goes by: the user's, or the public network's where there is none. -/
def configuredKey (text : List Char) : Except Error Key := serverKey (if trim text = [] then publicKey else text)

/-- The peer's challenge. -/
structure Hash where
  salt : List UInt8
  challenge : List UInt8
deriving DecidableEq, Repr

/-- Two rounds of SHA-256; nothing for no password. -/
def loginHash (password : List UInt8) (hash : Hash) : List UInt8 :=
  if password = [] then [] else c.sha256 (c.sha256 (password ++ hash.salt) ++ hash.challenge)

/-! ## What a link says -/

/-- An opened link was signed by its key, and names the dialled id. -/
theorem openIdPk_ok {signed : List UInt8} {with_ : Key} {peerId : String} {s : Signed}
    (h : openIdPk c signed with_ peerId = .ok s) :
    ∃ opened, c.signOpen signed with_ = some opened ∧ c.parseIdPk opened = .ok ⟨peerId, s.key.bytes, s.kxVersion⟩ := by
  unfold openIdPk at h
  split at h
  · cases h
  · split at h
    · cases h
    · rename_i opened hopen
      split at h
      · cases h
      · rename_i idPk hparse
        split at h
        · cases h
        · rename_i hid
          split at h
          · cases h
          · rename_i key hkey
            cases h
            refine ⟨opened, hopen, ?_⟩
            have hpk : key.bytes = idPk.pk := by
              unfold Key.of at hkey
              split at hkey
              · cases hkey
                rfl
              · cases hkey
            rw [hparse, hpk, ← not_not.mp hid]

end Vento.Rustdesk
