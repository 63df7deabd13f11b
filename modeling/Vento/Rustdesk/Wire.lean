import Mathlib.Data.List.Nodup
import Mathlib.Data.Nat.Bitwise
import Vento.Rustdesk.Crypto
/-!
# Frames

`rustdesk/src/wire.rs`: a frame is a header of one to four bytes, which has its own length in its two low
bits and the payload's above them, and the payload; and the session cipher of `crypto.rs`, which counts the
frames it sealed or opened and has the count for a nonce. The writer seals every payload, and the reader
opens all of more than a byte.

The socket is the bytes that are still to be read. The secretbox is libsodium's: `Box` stands for it, and
`Box.Documented` says that what it sealed it opens. Counters are 64 bits and wrap.
-/

namespace Vento.Rustdesk

open Vento.Lib

/-- `crypto_secretbox_easy` and `crypto_secretbox_open_easy`, of a message or a box, a nonce and a key. -/
structure Box where
  easy : List UInt8 → List UInt8 → Key → Except String (List UInt8)
  openEasy : List UInt8 → List UInt8 → Key → Except String (List UInt8)

/-- A box is sixteen bytes longer than what it seals, and opens to it. -/
def Box.Documented (x : Box) : Prop :=
  ∀ m n k, ∃ box, x.easy m n k = .ok box ∧ box.length = m.length + 16 ∧ x.openEasy box n k = .ok m

inductive WireError where
  /-- The stream ended in a frame. -/
  | ended
  | tooLong (n : Nat)
  | noTag
  | box (e : String)
deriving DecidableEq, Repr

/-! ## The cipher -/

structure Secretbox where
  key : Key
  counter : UInt64
deriving DecidableEq

namespace Secretbox

def new (key : Key) : Secretbox := ⟨key, 0⟩

def nonce (n : UInt64) : List UInt8 := toLeBytes 8 n.toNat ++ List.replicate 16 0

/-- The counter moves before it is used. -/
def counted (b : Secretbox) : Secretbox := { b with counter := b.counter + 1 }

def seal_ (x : Box) (b : Secretbox) (payload : List UInt8) : Except WireError (List UInt8) × Secretbox :=
  ((x.easy payload (nonce b.counted.counter) b.key).mapError .box, b.counted)

def open_ (x : Box) (b : Secretbox) (payload : List UInt8) : Except WireError (List UInt8) × Secretbox :=
  if payload.length < 16 then (.error .noTag, b.counted)
  else ((x.openEasy payload (nonce b.counted.counter) b.key).mapError .box, b.counted)

end Secretbox

/-! ## The two halves -/

def maxFrame : Nat := 64 <<< 20

structure Reader where
  cipher : Option Secretbox
  received : UInt64
deriving DecidableEq

structure Writer where
  cipher : Option Secretbox
  sent : UInt64
deriving DecidableEq

/-- A payload's length, beside the header's own. -/
def header (n : Nat) : List UInt8 :=
  if n ≤ 0x3f then [UInt8.ofNat (n <<< 2)]
  else if n ≤ 0x3fff then toLeBytes 2 ((n <<< 2) % 2 ^ 16 ||| 0x1)
  else if n ≤ 0x3fffff then
    let h := (n <<< 2) % 2 ^ 32 ||| 0x2
    toLeBytes 2 (h % 2 ^ 16) ++ [UInt8.ofNat (h >>> 16)]
  else toLeBytes 4 ((n <<< 2) % 2 ^ 32 ||| 0x3)

namespace Writer

def setCipher (w : Writer) (b : Secretbox) : Writer := { w with cipher := some b }

/-- The frame as it is written, and what it is counted as. -/
def write (w : Writer) (payload : List UInt8) : List UInt8 × Writer :=
  let frame := header payload.length ++ payload
  (frame, { w with sent := w.sent + UInt64.ofNat frame.length })

/-- What goes to the socket. -/
def sendBytes (x : Box) (w : Writer) (payload : List UInt8) : Except WireError (List UInt8) × Writer :=
  match w.cipher with
  | none => ((.ok (w.write payload).1), (w.write payload).2)
  | some b =>
    let w := { w with cipher := some (b.seal_ x payload).2 }
    match (b.seal_ x payload).1 with
    | .error e => (.error e, w)
    | .ok sealed => (.ok (w.write sealed).1, (w.write sealed).2)

end Writer

namespace Reader

def setCipher (r : Reader) (b : Secretbox) : Reader := { r with cipher := some b }

/-- A payload of more than a byte is opened, if there is a cipher. -/
def unsealed (x : Box) (r : Reader) (payload : List UInt8) : Except WireError (List UInt8) × Reader :=
  if payload.length > 1 then
    match r.cipher with
    | none => (.ok payload, r)
    | some b => ((b.open_ x payload).1, { r with cipher := some (b.open_ x payload).2 })
  else (.ok payload, r)

/-- One frame's payload, and what is left of the stream. -/
def frame (x : Box) (r : Reader) : List UInt8 → Except WireError (List UInt8) × Reader × List UInt8
  | [] => (.error .ended, r, [])
  | first :: stream =>
    let more := (first &&& 0x3).toNat
    if stream.length < more then (.error .ended, r, [])
    else
      let n := fromLeBytes (first :: stream.take more) >>> 2
      let stream := stream.drop more
      if n > maxFrame then (.error (.tooLong n), r, stream)
      else if stream.length < n then (.error .ended, r, [])
      else
        let r := { r with received := r.received + UInt64.ofNat (more + 1 + n) }
        let (result, r) := r.unsealed x (stream.take n)
        (result, r, stream.drop n)

end Reader

/-! ## Headers -/

theorem ofNat_and_three (n : Nat) : (UInt8.ofNat n &&& 0x3).toNat = n % 4 := by
  rw [UInt8.toNat_and, UInt8.toNat_ofNat']
  show n % 2 ^ 8 &&& (2 ^ 2 - 1) = n % 4
  rw [Nat.and_two_pow_sub_one_eq_mod]
  omega

/-- A header of `k` bytes for the length with the width bits beside it. -/
theorem header_word {n k c : Nat} (hn : 4 * n + c < 256 ^ (k + 1)) (hc : c < 4) :
    ∃ first tail, toLeBytes (k + 1) (4 * n + c) = first :: tail ∧ (first &&& 0x3).toNat = c ∧ tail.length = k ∧
      fromLeBytes (first :: tail) >>> 2 = n := by
  refine ⟨UInt8.ofNat (4 * n + c), toLeBytes k ((4 * n + c) / 256), rfl, ?_, toLeBytes_length _ _, ?_⟩
  · rw [ofNat_and_three]
    omega
  · have hword : fromLeBytes (toLeBytes (k + 1) (4 * n + c)) = 4 * n + c := fromLeBytes_toLeBytes hn
    show fromLeBytes (toLeBytes (k + 1) (4 * n + c)) >>> 2 = n
    rw [hword, Nat.shiftRight_eq_div_pow]
    omega

theorem shiftLeft_two_or {n c : Nat} (hc : c < 4) : n <<< 2 ||| c = 4 * n + c := by
  rw [← Nat.shiftLeft_add_eq_or_of_lt (by simpa using hc), Nat.shiftLeft_eq]
  omega

/-- The header says its own length and the payload's. -/
theorem header_reads {n : Nat} (h : n < 2 ^ 30) :
    ∃ first tail, header n = first :: tail ∧ tail.length = (first &&& 0x3).toNat ∧ fromLeBytes (first :: tail) >>> 2 = n := by
  unfold header
  split_ifs with h1 h2 h3
  · refine ⟨_, [], rfl, ?_, ?_⟩
    · rw [ofNat_and_three, Nat.shiftLeft_eq]
      simp
    · rw [fromLeBytes, fromLeBytes, UInt8.toNat_ofNat', Nat.shiftLeft_eq, Nat.shiftRight_eq_div_pow]
      omega
  · have hmod : (n <<< 2) % 2 ^ 16 = n <<< 2 := Nat.mod_eq_of_lt (by rw [Nat.shiftLeft_eq]; omega)
    rw [hmod, shiftLeft_two_or (by omega)]
    obtain ⟨first, tail, heq, hwidth, hlen, hn⟩ := @header_word n 1 1 (by omega) (by omega)
    exact ⟨first, tail, heq, hlen.trans hwidth.symm, hn⟩
  · have hmod : (n <<< 2) % 2 ^ 32 = n <<< 2 := Nat.mod_eq_of_lt (by rw [Nat.shiftLeft_eq]; omega)
    have hword : n <<< 2 ||| 2 = 4 * n + 2 := shiftLeft_two_or (by omega)
    dsimp only
    rw [hmod, hword]
    have hthree : toLeBytes 2 ((4 * n + 2) % 2 ^ 16) ++ [UInt8.ofNat ((4 * n + 2) >>> 16)] = toLeBytes 3 (4 * n + 2) := by
      have hlow : UInt8.ofNat ((4 * n + 2) % 2 ^ 16) = UInt8.ofNat (4 * n + 2) := by
        rw [← UInt8.toNat_inj, UInt8.toNat_ofNat', UInt8.toNat_ofNat']
        omega
      have hmid : UInt8.ofNat ((4 * n + 2) % 2 ^ 16 / 256) = UInt8.ofNat ((4 * n + 2) / 256) := by
        rw [← UInt8.toNat_inj, UInt8.toNat_ofNat', UInt8.toNat_ofNat']
        omega
      have hhigh : (4 * n + 2) >>> 16 = (4 * n + 2) / 256 / 256 := by
        rw [Nat.shiftRight_eq_div_pow]
        omega
      simp only [toLeBytes, hlow, hmid, hhigh, List.cons_append, List.nil_append]
    rw [hthree]
    obtain ⟨first, tail, heq, hwidth, hlen, hn⟩ := @header_word n 2 2 (by omega) (by omega)
    exact ⟨first, tail, heq, hlen.trans hwidth.symm, hn⟩
  · have hmod : (n <<< 2) % 2 ^ 32 = n <<< 2 := Nat.mod_eq_of_lt (by rw [Nat.shiftLeft_eq]; omega)
    rw [hmod, shiftLeft_two_or (by omega)]
    obtain ⟨first, tail, heq, hwidth, hlen, hn⟩ := @header_word n 3 3 (by omega) (by omega)
    exact ⟨first, tail, heq, hlen.trans hwidth.symm, hn⟩

variable {x : Box}

/-- A frame is read as it was written, and no more of the stream. -/
theorem frame_write (w : Writer) (r : Reader) {payload : List UInt8} (h : payload.length ≤ maxFrame) (rest : List UInt8) :
    r.frame x ((w.write payload).1 ++ rest) =
      ((({ r with received := r.received + UInt64.ofNat (w.write payload).1.length } : Reader).unsealed x payload).1,
        (({ r with received := r.received + UInt64.ofNat (w.write payload).1.length } : Reader).unsealed x payload).2,
        rest) := by
  have hmax : maxFrame < 2 ^ 30 := by decide
  obtain ⟨first, tail, hhead, hlen, hn⟩ := header_reads (Nat.lt_of_le_of_lt h hmax)
  have hbytes : (w.write payload).1 ++ rest = first :: (tail ++ (payload ++ rest)) := by
    simp [Writer.write, hhead]
  have hlength : (w.write payload).1.length = (first &&& 0x3).toNat + 1 + payload.length := by
    simp [Writer.write, hhead, hlen]
    omega
  rw [hbytes, hlength, Reader.frame]
  have htake : (tail ++ (payload ++ rest)).take (first &&& 0x3).toNat = tail := by
    rw [← hlen, List.take_left]
  have hdrop : (tail ++ (payload ++ rest)).drop (first &&& 0x3).toNat = payload ++ rest := by
    rw [← hlen, List.drop_left]
  have hmore : ¬(tail ++ (payload ++ rest)).length < (first &&& 0x3).toNat := by
    rw [← hlen, List.length_append]
    omega
  have hrest : ¬(payload ++ rest).length < payload.length := by
    rw [List.length_append]
    omega
  simp only [hmore, if_false, htake, hdrop, hn, Nat.not_lt.mpr h, hrest, List.take_left, List.drop_left]

/-! ## One writer and one reader -/

/-- What the writer's end does: a payload is sent, or a cipher installed. -/
inductive Turn where
  | payload (bytes : List UInt8)
  | setCipher (key : Key)
deriving DecidableEq

/-- What the reader's end does meanwhile: a frame is read, or the cipher installed. -/
def Turn.schedule : Turn → Option Key
  | .payload _ => none
  | .setCipher key => some key

def payloads (turns : List Turn) : List (List UInt8) :=
  turns.filterMap fun
    | .payload bytes => some bytes
    | .setCipher _ => none

/-- All that is written, if nothing fails. -/
def Writer.writes (x : Box) (w : Writer) : List Turn → Except WireError (List UInt8 × Writer)
  | [] => .ok ([], w)
  | .setCipher key :: turns => (w.setCipher (.new key)).writes x turns
  | .payload bytes :: turns =>
    match w.sendBytes x bytes with
    | (.error e, _) => .error e
    | (.ok frame, w) =>
      match w.writes x turns with
      | .error e => .error e
      | .ok (more, w) => .ok (frame ++ more, w)

/-- All that is read, if nothing fails, and what is left of the stream. -/
def Reader.reads (x : Box) (r : Reader) : List (Option Key) → List UInt8 → Except WireError (List (List UInt8) × Reader × List UInt8)
  | [], stream => .ok ([], r, stream)
  | some key :: schedule, stream => (r.setCipher (.new key)).reads x schedule stream
  | none :: schedule, stream =>
    match r.frame x stream with
    | (.error e, _) => .error e
    | (.ok payload, r, stream) =>
      match r.reads x schedule stream with
      | .error e => .error e
      | .ok (more, r, stream) => .ok (payload :: more, r, stream)

/-- Every payload is within the limit, as it is written: sealed, once there is a cipher. -/
def Fits : Bool → List Turn → Prop
  | _, [] => True
  | _, .setCipher _ :: turns => Fits true turns
  | ciphered, .payload bytes :: turns => bytes.length + (if ciphered then 16 else 0) ≤ maxFrame ∧ Fits ciphered turns

instance Fits.decidable : (ciphered : Bool) → (turns : List Turn) → Decidable (Fits ciphered turns)
  | _, [] => isTrue trivial
  | _, .setCipher _ :: turns => Fits.decidable true turns
  | ciphered, .payload _ :: turns =>
    have := Fits.decidable ciphered turns
    inferInstanceAs (Decidable (_ ∧ _))

/-- A payload that is sent is read, with the two ends still in step. -/
theorem frame_sendBytes (hx : x.Documented) {w : Writer} {r : Reader} (hcipher : r.cipher = w.cipher)
    (hcount : r.received = w.sent) {payload : List UInt8}
    (h : payload.length + (if w.cipher.isSome then 16 else 0) ≤ maxFrame) :
    ∃ frame w' r', w.sendBytes x payload = (.ok frame, w') ∧ (∀ rest, r.frame x (frame ++ rest) = (.ok payload, r', rest)) ∧
      r'.cipher = w'.cipher ∧ r'.received = w'.sent ∧ w'.cipher.isSome = w.cipher.isSome := by
  cases hw : w.cipher with
  | none =>
    rw [hw] at h hcipher
    refine ⟨(w.write payload).1, (w.write payload).2, { r with received := r.received + UInt64.ofNat (w.write payload).1.length },
      ?_, ?_, ?_, ?_, ?_⟩
    · simp [Writer.sendBytes, hw]
    · intro rest
      rw [frame_write w r (by simpa using h) rest]
      simp [Reader.unsealed, hcipher]
    · simpa [Writer.write, hw] using hcipher
    · simp [Writer.write, hcount]
    · simp [Writer.write, hw]
  | some b =>
    rw [hw] at h hcipher
    obtain ⟨box, hseal, hlen, hopen⟩ := hx payload (Secretbox.nonce b.counted.counter) b.key
    have hboxlen : box.length ≤ maxFrame := by
      rw [hlen]
      simpa using h
    let w₁ : Writer := { w with cipher := some b.counted }
    refine ⟨(w₁.write box).1, (w₁.write box).2,
      ⟨some b.counted, r.received + UInt64.ofNat (w₁.write box).1.length⟩, ?_, ?_, rfl, ?_, rfl⟩
    · simp [Writer.sendBytes, hw, Secretbox.seal_, hseal, Except.mapError, w₁]
    · intro rest
      rw [frame_write w₁ r hboxlen rest]
      have hlong : ¬box.length < 16 := by omega
      have hmore : box.length > 1 := by omega
      simp [Reader.unsealed, hcipher, Secretbox.open_, hlong, hmore, hopen, Except.mapError]
    · simp [Writer.write, w₁, hcount]

/-- What is written is read back, in order, and nothing of what follows it. -/
theorem reads_writes (hx : x.Documented) (turns : List Turn) :
    ∀ {w : Writer} {r : Reader}, r.cipher = w.cipher → r.received = w.sent → Fits w.cipher.isSome turns →
      ∃ bytes w' r', w.writes x turns = .ok (bytes, w') ∧
        (∀ rest, r.reads x (turns.map Turn.schedule) (bytes ++ rest) = .ok (payloads turns, r', rest)) ∧
        r'.cipher = w'.cipher ∧ r'.received = w'.sent := by
  induction turns with
  | nil =>
    intro w r hcipher hcount _
    exact ⟨[], w, r, rfl, fun _ => rfl, hcipher, hcount⟩
  | cons turn turns ih =>
    intro w r hcipher hcount hfits
    cases turn with
    | setCipher key =>
      obtain ⟨bytes, w', r', hwrites, hreads, hc, hn⟩ :=
        @ih (w.setCipher (.new key)) (r.setCipher (.new key)) rfl hcount hfits
      exact ⟨bytes, w', r', hwrites, hreads, hc, hn⟩
    | payload payload =>
      obtain ⟨frame, w₁, r₁, hsend, hframe, hc₁, hn₁, hsome⟩ := frame_sendBytes hx hcipher hcount hfits.1
      obtain ⟨bytes, w', r', hwrites, hreads, hc, hn⟩ := ih hc₁ hn₁ (hsome ▸ hfits.2)
      refine ⟨frame ++ bytes, w', r', ?_, ?_, hc, hn⟩
      · simp [Writer.writes, hsend, hwrites]
      · intro rest
        rw [List.map_cons, Turn.schedule, Reader.reads, List.append_assoc, hframe]
        simp only [hreads]
        rfl

/-! ## Nonces -/

/-- What a cipher is used for. -/
inductive Use where
  | seal_ (payload : List UInt8)
  | open_ (payload : List UInt8)
deriving DecidableEq

namespace Secretbox

def use (x : Box) (b : Secretbox) : Use → Secretbox
  | .seal_ payload => (b.seal_ x payload).2
  | .open_ payload => (b.open_ x payload).2

/-- The nonces that a cipher uses. -/
def nonces (x : Box) (b : Secretbox) : List Use → List (List UInt8)
  | [] => []
  | u :: us => nonce b.counted.counter :: (b.use x u).nonces x us

theorem use_eq (x : Box) (b : Secretbox) (u : Use) : b.use x u = b.counted := by
  cases u with
  | seal_ payload => rfl
  | open_ payload =>
    unfold use open_
    dsimp only
    split <;> rfl

/-- The `i`th use has the count by then for a nonce, whatever the uses are. -/
theorem nonces_getElem? (x : Box) (us : List Use) :
    ∀ (b : Secretbox) (i : Nat), i < us.length → (b.nonces x us)[i]? = some (nonce (b.counter + UInt64.ofNat (i + 1))) := by
  induction us with
  | nil => exact fun b i hi => absurd hi (Nat.not_lt_zero i)
  | cons u us ih =>
    intro b i hi
    cases i with
    | zero => rfl
    | succ i =>
      rw [nonces, List.getElem?_cons_succ, use_eq, ih b.counted i (Nat.lt_of_succ_lt_succ hi)]
      have hcount : b.counted.counter + UInt64.ofNat (i + 1) = b.counter + UInt64.ofNat (i + 1 + 1) := by
        rw [counted, UInt64.ofNat_add (i + 1) 1, UInt64.add_assoc, UInt64.add_comm 1]
        rfl
      rw [hcount]

theorem nonces_length (x : Box) (us : List Use) : ∀ b : Secretbox, (b.nonces x us).length = us.length := by
  induction us with
  | nil => exact fun b => rfl
  | cons u us ih =>
    intro b
    rw [nonces, List.length_cons, List.length_cons, ih]

theorem nonce_inj {m n : UInt64} (h : nonce m = nonce n) : m = n := by
  have hbytes : toLeBytes 8 m.toNat = toLeBytes 8 n.toNat := List.append_cancel_right h
  have hnat := congrArg fromLeBytes hbytes
  rw [fromLeBytes_toLeBytes m.toNat_lt, fromLeBytes_toLeBytes n.toNat_lt] at hnat
  exact UInt64.toNat_inj.mp hnat

theorem ofNat_succ_inj {i j : Nat} (hi : i < 2 ^ 64) (hj : j < 2 ^ 64)
    (h : UInt64.ofNat (i + 1) = UInt64.ofNat (j + 1)) : i = j := by
  have hnat := congrArg UInt64.toNat h
  rw [UInt64.toNat_ofNat', UInt64.toNat_ofNat'] at hnat
  omega

/-- No nonce is used twice until the counter is back where it was. -/
theorem nonces_nodup (x : Box) (b : Secretbox) {us : List Use} (h : us.length ≤ 2 ^ 64) : (b.nonces x us).Nodup := by
  rw [List.nodup_iff_getElem?_ne_getElem?]
  intro i j hij hj heq
  rw [nonces_length] at hj
  rw [nonces_getElem? x us b i (by omega), nonces_getElem? x us b j hj] at heq
  have hcount := (UInt64.add_right_inj _).mp (nonce_inj (Option.some.inj heq))
  have := ofNat_succ_inj (by omega) (by omega) hcount
  omega

end Secretbox

/-! ## What the reader takes -/

/-- Of what is in the stream, the box opens only what the `j`th use of a new cipher with the key sealed, for the
`j`th of the payloads, and under its nonce. -/
def Box.Authentic (x : Box) (key : Key) (sealed : List (List UInt8)) (stream : List UInt8) : Prop :=
  ∀ box, box <:+: stream → ∀ n m, x.openEasy box n key = .ok m →
    ∃ j : Nat, sealed[j]? = some m ∧ ((Secretbox.new key).nonces x (sealed.map .seal_))[j]? = some n

/-- A call of `frame`, and how many payloads had gone to the cipher by then. -/
structure Receipt where
  position : Nat
  result : Except WireError (List UInt8)

/-- Frames read from any stream, whatever came of those before. -/
def Reader.receive (x : Box) (r : Reader) (stream : List UInt8) (position : Nat) : Nat → List Receipt
  | 0 => []
  | calls + 1 =>
    let out := r.frame x stream
    let position := if out.2.1.cipher = r.cipher then position else position + 1
    ⟨position, out.1⟩ :: out.2.1.receive x out.2.2 position calls

theorem counted_ne (b : Secretbox) : b.counted ≠ b := by
  intro h
  have hcounter : b.counter + 1 = b.counter := congrArg Secretbox.counter h
  exact absurd (UInt64.add_eq_left.mp hcounter) (by decide)

/-- A payload leaves the cipher as it is and has no more than a byte, or goes through it. -/
theorem unsealed_cipher {r : Reader} {b : Secretbox} (hb : r.cipher = some b) (payload : List UInt8) :
    ((r.unsealed x payload).2.cipher = some b ∧ ∀ p, (r.unsealed x payload).1 = .ok p → p.length ≤ 1) ∨
      ((r.unsealed x payload).2.cipher = some b.counted ∧ ∀ p, (r.unsealed x payload).1 = .ok p →
        x.openEasy payload (Secretbox.nonce b.counted.counter) b.key = .ok p) := by
  unfold Reader.unsealed
  split_ifs with hlong
  · rw [hb]
    unfold Secretbox.open_
    dsimp only
    split_ifs
    · exact Or.inr ⟨rfl, nofun⟩
    · refine Or.inr ⟨rfl, ?_⟩
      intro p hp
      cases hopen : x.openEasy payload (Secretbox.nonce b.counted.counter) b.key with
      | error e =>
        rw [hopen] at hp
        cases hp
      | ok m =>
        rw [hopen] at hp
        cases hp
        rfl
  · refine Or.inl ⟨hb, ?_⟩
    intro p hp
    cases hp
    omega

/-- So does a frame, with a payload from the stream; what is left is its end. -/
theorem frame_cipher {r : Reader} {b : Secretbox} (hb : r.cipher = some b) (stream : List UInt8) :
    (r.frame x stream).2.2 <:+ stream ∧
      (((r.frame x stream).2.1.cipher = some b ∧ ∀ p, (r.frame x stream).1 = .ok p → p.length ≤ 1) ∨
        ((r.frame x stream).2.1.cipher = some b.counted ∧ ∀ p, (r.frame x stream).1 = .ok p →
          ∃ box, box <:+: stream ∧ x.openEasy box (Secretbox.nonce b.counted.counter) b.key = .ok p)) := by
  cases stream with
  | nil => exact ⟨List.suffix_refl _, Or.inl ⟨hb, nofun⟩⟩
  | cons first stream =>
    unfold Reader.frame
    dsimp only
    split_ifs
    · exact ⟨List.nil_suffix, Or.inl ⟨hb, nofun⟩⟩
    · exact ⟨(List.drop_suffix _ _).trans (List.suffix_cons _ _), Or.inl ⟨hb, nofun⟩⟩
    · exact ⟨List.nil_suffix, Or.inl ⟨hb, nofun⟩⟩
    · refine ⟨(List.drop_suffix _ _).trans ((List.drop_suffix _ _).trans (List.suffix_cons _ _)), ?_⟩
      refine (unsealed_cipher (by exact hb) _).imp_right ?_
      rintro ⟨hc, hopened⟩
      refine ⟨hc, fun p hp => ⟨_, ?_, hopened p hp⟩⟩
      exact (List.take_prefix _ _).isInfix.trans ((List.drop_suffix _ _).trans (List.suffix_cons _ _)).isInfix

/-- What is taken of more than a byte was opened under the count of what went to the cipher. -/
theorem receive_opened {key : Key} {whole : List UInt8} {calls : Nat} :
    ∀ {r : Reader} {position : Nat} {stream : List UInt8}, r.cipher = some ⟨key, UInt64.ofNat position⟩ → stream <:+ whole →
      ∀ receipt ∈ r.receive x stream position calls, ∀ p, receipt.result = .ok p → 1 < p.length →
        ∃ i box, receipt.position = i + 1 ∧ box <:+: whole ∧
          x.openEasy box (Secretbox.nonce (UInt64.ofNat (i + 1))) key = .ok p := by
  induction calls with
  | zero => exact nofun
  | succ calls ih =>
    intro r position stream hr hwhole receipt hmem p hp hlen
    rw [Reader.receive] at hmem
    obtain ⟨hrest, ⟨hc, hshort⟩ | ⟨hc, hopened⟩⟩ := frame_cipher (x := x) hr stream
    · rw [if_pos (hc.trans hr.symm)] at hmem
      rcases List.mem_cons.mp hmem with rfl | hmem
      · have := hshort p hp
        omega
      · exact ih hc (hrest.trans hwhole) receipt hmem p hp hlen
    · have hne : (r.frame x stream).2.1.cipher ≠ r.cipher := by
        rw [hc, hr]
        intro h
        exact counted_ne _ (Option.some.inj h)
      rw [if_neg hne] at hmem
      have hcount : (Secretbox.mk key (UInt64.ofNat position)).counted = ⟨key, UInt64.ofNat (position + 1)⟩ := by
        rw [Secretbox.counted, UInt64.ofNat_add]
        rfl
      rw [hcount] at hc hopened
      rcases List.mem_cons.mp hmem with rfl | hmem
      · obtain ⟨box, hin, hbox⟩ := hopened p hp
        exact ⟨position, box, rfl, hin.trans hwhole.isInfix, hbox⟩
      · exact ih hc (hrest.trans hwhole) receipt hmem p hp hlen

/-- Framing and encryption: what is written is read back and no more; no nonce comes twice in `2 ^ 64` uses; and
what is taken of more than a byte is what the other end sealed at that position, if that is one of its first `2 ^ 64`
and nothing else is sealed under the key. -/
theorem wire_round_trips (x : Box) (hx : x.Documented) :
    (∀ turns, Fits false turns → ∃ bytes w r, Writer.writes x ⟨none, 0⟩ turns = .ok (bytes, w) ∧
      ∀ rest, Reader.reads x ⟨none, 0⟩ (turns.map Turn.schedule) (bytes ++ rest) = .ok (payloads turns, r, rest)) ∧
    (∀ key us, us.length ≤ 2 ^ 64 → ((Secretbox.new key).nonces x us).Nodup) ∧
    ∀ key sealed r stream calls, x.Authentic key sealed stream → sealed.length ≤ 2 ^ 64 → r.cipher = some (.new key) →
      ∀ receipt ∈ Reader.receive x r stream 0 calls, ∀ p, receipt.result = .ok p → 2 ≤ p.length →
        receipt.position ≤ 2 ^ 64 → ∃ i : Nat, receipt.position = i + 1 ∧ sealed[i]? = some p := by
  refine ⟨?_, fun key us h => Secretbox.nonces_nodup x _ h, ?_⟩
  · intro turns hfits
    obtain ⟨bytes, w, r, hwrites, hreads, -⟩ := @reads_writes x hx turns ⟨none, 0⟩ ⟨none, 0⟩ rfl rfl hfits
    exact ⟨bytes, w, r, hwrites, hreads⟩
  · intro key sealed r stream calls hauth hlen hr receipt hmem p hp hp2 hpos
    obtain ⟨i, box, hi, hin, hbox⟩ := receive_opened hr (List.suffix_refl stream) receipt hmem p hp hp2
    obtain ⟨j, hj, hnonce⟩ := hauth box hin _ p hbox
    have hjlen : j < sealed.length := (List.getElem?_eq_some_iff.mp hj).1
    rw [Secretbox.nonces_getElem? x _ _ j (by rwa [List.length_map])] at hnonce
    have hcount : UInt64.ofNat (j + 1) = UInt64.ofNat (i + 1) := by
      have heq := Secretbox.nonce_inj (Option.some.inj hnonce)
      rwa [Secretbox.new, UInt64.zero_add] at heq
    have hij : j = i := Secretbox.ofNat_succ_inj (by omega) (by omega) hcount
    exact ⟨i, hi, hij ▸ hj⟩

/-! ## A box -/

/-- A tag that says the length and, of a nonce that is a count, the count. -/
def tag (n m : List UInt8) : List UInt8 :=
  if n = n.take 8 ++ List.replicate 16 0 ∧ n.length = 24 then UInt8.ofNat m.length :: n.take 8 ++ List.replicate 7 0x5e
  else List.replicate 16 0xff

/-- A box that is its tag and the message. -/
def tagged : Box where
  easy m n _ := .ok (tag n m ++ m)
  openEasy box n _ := if box.take 16 = tag n (box.drop 16) then .ok (box.drop 16) else .error "forged"

theorem tag_length (n m : List UInt8) : (tag n m).length = 16 := by
  unfold tag
  split_ifs with h
  · simp [h.2]
  · simp

theorem documented_tagged : tagged.Documented := by
  intro m n k
  refine ⟨tag n m ++ m, rfl, ?_, ?_⟩
  · rw [List.length_append, tag_length]
    omega
  · have hdrop : (tag n m ++ m).drop 16 = m := by
      rw [← tag_length n m, List.drop_left]
    have htake : (tag n m ++ m).take 16 = tag n m := by
      rw [← tag_length n m, List.take_left]
    simp [tagged, hdrop, htake]

def someKey : Key := ⟨List.replicate 32 7, by simp⟩

/-- A frame with "hi" sealed in it, first. -/
def sealedFrame : List UInt8 := 0x48 :: tag (Secretbox.nonce 1) [0x68, 0x69] ++ [0x68, 0x69]

/-- What a part of it has to be for the tag in front to be right. -/
theorem sealedFrame_parts : ∀ i < 20, ∀ l < 20,
    ((sealedFrame.drop i).take l).take 16 ≠ List.replicate 16 0xff ∧
      (((sealedFrame.drop i).take l).take 1 = [UInt8.ofNat (((sealedFrame.drop i).take l).drop 16).length] →
        (((sealedFrame.drop i).take l).take 16).drop 9 = List.replicate 7 0x5e →
        (sealedFrame.drop i).take l = sealedFrame.drop 1) := by
  decide +kernel

theorem authentic_sealedFrame : tagged.Authentic someKey [[0x68, 0x69]] sealedFrame := by
  rintro box ⟨before, after, hbox⟩ n m hopen
  have hpart : box = (sealedFrame.drop before.length).take box.length := by
    rw [← hbox, List.append_assoc, List.drop_left, List.take_left]
  have hlen : before.length + box.length + after.length = 19 := by
    rw [← List.length_append, ← List.length_append, hbox]
    rfl
  obtain ⟨hff, hone⟩ := sealedFrame_parts before.length (by omega) box.length (by omega)
  rw [← hpart] at hff hone
  have htag : box.take 16 = tag n (box.drop 16) ∧ box.drop 16 = m := by
    simp only [tagged] at hopen
    split_ifs at hopen with h
    cases hopen
    exact ⟨h, rfl⟩
  obtain ⟨htag, rfl⟩ := htag
  unfold tag at htag
  split_ifs at htag with hn
  · have htake : n.take 8 = ((box.take 16).drop 1).take 8 := by
      rw [htag]
      simp [hn.2]
    have hbox' : box = sealedFrame.drop 1 := by
      refine hone ?_ ?_
      · have := congrArg (List.take 1) htag
        simpa [List.take_take] using this
      · rw [htag]
        simp [hn.2]
    refine ⟨0, ?_, ?_⟩
    · rw [hbox']
      decide
    · rw [hn.1, htake, hbox']
      decide
  · exact absurd htag hff

/-- A key exchange's plain frame, the cipher and a sealed one; and that frame from the network. -/
theorem framed_exchange :
    (∃ bytes w r, Writer.writes tagged ⟨none, 0⟩ [.payload [1], .setCipher someKey, .payload []] = .ok (bytes, w) ∧
      ∀ rest, Reader.reads tagged ⟨none, 0⟩ [none, some someKey, none] (bytes ++ rest) = .ok ([[1], []], r, rest)) ∧
    ((Secretbox.new someKey).nonces tagged [.seal_ [], .seal_ []]).Nodup ∧
    ∃ receipt ∈ Reader.receive tagged ⟨some (.new someKey), 0⟩ sealedFrame 0 1, receipt.result = .ok [0x68, 0x69] ∧
      ∃ i : Nat, receipt.position = i + 1 ∧ ([[0x68, 0x69]] : List (List UInt8))[i]? = some [0x68, 0x69] := by
  obtain ⟨hround, hnonces, htaken⟩ := wire_round_trips tagged documented_tagged
  have hmem : (⟨1, .ok [0x68, 0x69]⟩ : Receipt) ∈ Reader.receive tagged ⟨some (.new someKey), 0⟩ sealedFrame 0 1 :=
    List.mem_singleton.mpr rfl
  refine ⟨?_, hnonces someKey _ (by decide), ⟨1, .ok [0x68, 0x69]⟩, hmem, rfl, ?_⟩
  · exact hround [.payload [1], .setCipher someKey, .payload []] (by decide)
  · exact htaken someKey _ ⟨some (.new someKey), 0⟩ sealedFrame 1 authentic_sealedFrame (by decide) rfl
      ⟨1, .ok [0x68, 0x69]⟩ hmem _ rfl (by decide) (by decide)

/-- The counter is back after `2 ^ 64` frames: the next one has the nonce of the first. -/
theorem nonce_again :
    ¬((Secretbox.new someKey).nonces tagged (List.replicate (2 ^ 64 + 1) (.seal_ []))).Nodup := by
  rw [List.nodup_iff_getElem?_ne_getElem?]
  intro h
  have hlen := Secretbox.nonces_length tagged (List.replicate (2 ^ 64 + 1) (.seal_ [])) (.new someKey)
  rw [List.length_replicate] at hlen
  refine h 0 (2 ^ 64) (by decide) (by rw [hlen]; decide) ?_
  rw [Secretbox.nonces_getElem? tagged _ _ 0 (by rw [List.length_replicate]; decide),
    Secretbox.nonces_getElem? tagged _ _ (2 ^ 64) (by rw [List.length_replicate]; decide)]
  decide

end Vento.Rustdesk
