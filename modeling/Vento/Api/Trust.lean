import Vento.Api.Mailbox
import Vento.Runtime.Address
/-!
# What a pin means

`api/src/trust.rs`: the key an address is filed under, how two fingerprints compare, what is
asked when they differ, and when an answer is pinned. A store is anything that lists its pins
and files one.
-/

namespace Vento.Api.Trust

open Vento.Lib Vento.Lib.Str Vento.Runtime.Address

/-- The address a pin is filed under: trimmed of ASCII controls and the space, and folded for case. -/
def key (u : Unicode) (address : Str) : Str := u.toLowercase (trimMatches (· ≤ ' ') address)

/-- Only the ASCII hex digits, in upper case. -/
def canonical (fingerprint : Str) : Str := (fingerprint.filter isAsciiHexdigit).map Char.toUpper

/-- Both name a port, and the same one of the same host. -/
def samePort (stored asked : Str) (ports : Ports) : Bool :=
  match split stored 0 ports, split asked 0 ports with
  | .ok a, .ok b => a.2 ≠ 0 ∧ a = b
  | _, _ => false

/-- Whether `stored`, a key, names the same server as `asked`, for forgetting it. -/
def sameServer (u : Unicode) (stored asked : Str) : Bool :=
  let stored := key u stored
  let asked := key u asked
  if stored = asked then true
  else if (rsplitOnce '@' stored).any fun p => p.1 = asked then true
  else [Ports.plain, Ports.display].any (samePort stored asked)

/-- The host of a key, if it parses as an address. -/
def hostOf (u : Unicode) (stored : Str) : Option Str :=
  let stored := key u stored
  let address := ((rsplitOnce '@' stored).map Prod.fst).getD stored
  match split address 0 .display with
  | .ok (host, _) => some host
  | .error _ => none

inductive Verdict where
  /-- The fingerprint this address was accepted with. -/
  | matched
  | ask (identity : Identity) (matchingAddress : Str)
deriving DecidableEq, Repr

/-- Checks `fingerprint` against the pins, each a key as filed and the fingerprint it was pinned with. -/
def verdict (u : Unicode) (pins : List (Str × Str)) (address fingerprint : Str) : Verdict :=
  let key := key u address
  let wanted := canonical fingerprint
  match pins.find? (fun p => p.1 = key) with
  | some (_, pin) => if canonical pin = wanted then .matched else .ask .changed []
  | none =>
    match if fingerprint = [] then none else pins.find? (fun p => p.1 ≠ key ∧ canonical p.2 = wanted) with
    | some (other, _) => .ask .matchesAnother other
    | none => .ask .new []

/-- The option that names an address's network, and the network where it is empty. -/
structure Network where
  option : Str
  default : Str
deriving DecidableEq, Repr

structure Pinning where
  network : Option Network
  firstSightSilent : Bool
deriving DecidableEq, Repr

/-- What a backend says of itself, as far as its pins go. -/
structure About where
  pinning : Pinning
deriving DecidableEq, Repr

structure Pinned where
  key : Str
  firstSightSilent : Bool
deriving DecidableEq, Repr

/-- The network an address is on; `options` gives an option's value, or an empty text. -/
def Network.named (network : Network) (options : Str → Str) : Str :=
  let named := trim (options network.option)
  if named = [] then network.default else named

/-- What a backend's identities are pinned against. -/
def pinnedAs (about : About) (address : Str) (options : Str → Str) : Pinned :=
  let key :=
    match about.pinning.network with
    | some network => address ++ '@' :: network.named options
    | none => address
  ⟨key, about.pinning.firstSightSilent⟩

/-- A client's pin storage, over the state it is kept in. -/
structure Store (σ : Type) where
  pins : σ → List (Str × Str)
  put : Str → Str → σ → σ

inductive Decision where
  | matched
  | firstSight
  | ask (identity : Identity) (matchingAddress : Str)
deriving DecidableEq, Repr

variable {σ : Type}

def pin (u : Unicode) (store : Store σ) (address fingerprint : Str) (s : σ) : σ := store.put (key u address) fingerprint s

def decide (u : Unicode) (store : Store σ) (pinned : Pinned) (fingerprint : Str) (s : σ) : Decision × σ :=
  match verdict u (store.pins s) pinned.key fingerprint with
  | .matched => (.matched, s)
  | .ask identity matchingAddress =>
    if pinned.firstSightSilent ∧ identity ≠ .changed then (.firstSight, pin u store pinned.key fingerprint s)
    else (.ask identity matchingAddress, s)

/-- Applies the user's answer, which is returned. -/
def answered (u : Unicode) (store : Store σ) (pinned : Pinned) (fingerprint : Str) (accept remember : Bool) (s : σ) :
    Bool × σ :=
  (accept, if accept ∧ remember then pin u store pinned.key fingerprint s else s)

/-! ## What is decided -/

/-- What a key is pinned to: the first entry for it. -/
def pinFor (pins : List (Str × Str)) (key : Str) : Option Str := (pins.find? (fun p => p.1 = key)).map Prod.snd

theorem verdict_matched_iff (u : Unicode) (pins : List (Str × Str)) (address fingerprint : Str) :
    verdict u pins address fingerprint = .matched ↔
      ∃ pin, pinFor pins (key u address) = some pin ∧ canonical pin = canonical fingerprint := by
  unfold verdict pinFor
  dsimp only
  split
  · next k pin h => rw [h]; split <;> simp_all
  · next h =>
    rw [h]
    split <;> simp

/-- A verdict other than a change is about a key with no entry. -/
theorem pinFor_eq_none_of_verdict {u : Unicode} {pins : List (Str × Str)} {address fingerprint other : Str}
    {identity : Identity} (h : verdict u pins address fingerprint = .ask identity other) (hi : identity ≠ .changed) :
    pinFor pins (key u address) = none := by
  unfold verdict at h
  dsimp only at h
  split at h
  · split at h
    · cases h
    · cases h
      exact absurd rfl hi
  · next hnone => rw [pinFor, hnone]; rfl

/-- What `decide` says, and what it does to the store: it files the fingerprint of a first sight alone. -/
theorem decide_cases (u : Unicode) (store : Store σ) (pinned : Pinned) (fingerprint : Str) (s : σ) :
    (∃ p, pinFor (store.pins s) (key u pinned.key) = some p ∧ canonical p = canonical fingerprint ∧
        decide u store pinned fingerprint s = (.matched, s)) ∨
      (pinFor (store.pins s) (key u pinned.key) = none ∧ pinned.firstSightSilent = true ∧
        decide u store pinned fingerprint s = (.firstSight, store.put (key u pinned.key) fingerprint s)) ∨
      ∃ identity other, decide u store pinned fingerprint s = (.ask identity other, s) := by
  cases hv : verdict u (store.pins s) pinned.key fingerprint with
  | matched =>
    obtain ⟨p, hp, hc⟩ := (verdict_matched_iff u _ _ _).1 hv
    exact .inl ⟨p, hp, hc, by simp [decide, hv]⟩
  | ask identity other =>
    by_cases h : pinned.firstSightSilent = true ∧ identity ≠ .changed
    · exact .inr (.inl ⟨pinFor_eq_none_of_verdict hv h.2, h.1, by simp [decide, hv, h, pin]⟩)
    · refine .inr (.inr ⟨identity, other, ?_⟩)
      simp only [decide, hv, if_neg h]

end Vento.Api.Trust
