import Vento.Lib.Bytes
import Vento.Lib.Checked
/-!
# Finding a file in a zip

`find` of `linux/src/realvnc/zip.rs`: the end record, the central directory that it gives and the local
header of the entry. Offsets are `usize`s of 64 bits, and a sum that does not fit is an `overflow`.

The end record is looked for backwards through the comment after it, and nothing tells a record from a
comment that looks like one: `find_archive` has what is found where the last that looks like one is of
the directory.
-/

namespace Vento.Linux.Zip

open Vento.Lib Checked

/-- `Entry`. -/
structure Entry where
  method : Nat
  data : List UInt8
  size : Nat
deriving DecidableEq, Repr

/-- `reader`, read to its end: the contents, inflated where they were deflated. -/
def Entry.reader (inflate : List UInt8 → List UInt8) (e : Entry) (limit : Nat) : Except String (List UInt8) :=
  if limit < e.size then throw ("it is " ++ toString e.size ++ " bytes")
  else
    match e.method with
    | 0 => return e.data.take limit
    | 8 => return (inflate e.data).take limit
    | other => throw ("compression method " ++ toString other)

abbrev Find := Checked String

def endSignature : Nat := 0x06054b50
def centralSignature : Nat := 0x02014b50
def localSignature : Nat := 0x04034b50

/-- The little-endian word of `k` bytes at an offset. -/
def wordAt (k : Nat) (zip : List UInt8) (at_ : Nat) : Find (Option Nat) := do
  let hi ← add at_ k
  return (slice zip at_ hi).map fromLeBytes

def u32At : List UInt8 → Nat → Find (Option Nat) := wordAt 4

/-- A word that has to be there. -/
def needWord (k : Nat) (zip : List UInt8) (at_ offset : Nat) : Find Nat := do
  okOr (← wordAt k zip (← add at_ offset)) "truncated"

/-- The last of the `n` offsets from `lo` on where the signature stands. -/
def lastEnd (zip : List UInt8) (lo : Nat) : Nat → Find (Option Nat)
  | 0 => return none
  | n + 1 => do
    if (← u32At zip (lo + n)) = some endSignature then return some (lo + n) else lastEnd zip lo n

/-- The entry with a name among the next `n` of the central directory. -/
def scan (zip name : List UInt8) : Nat → Nat → Find (Option Entry)
  | 0, _ => return none
  | n + 1, at_ => do
    if (← u32At zip at_) ≠ some centralSignature then throw "bad central directory"
    let method ← needWord 2 zip at_ 10
    let compressed ← needWord 4 zip at_ 20
    let size ← needWord 4 zip at_ 24
    let nameLen ← needWord 2 zip at_ 28
    let extraLen ← needWord 2 zip at_ 30
    let commentLen ← needWord 2 zip at_ 32
    let local_ ← needWord 4 zip at_ 42
    let nameAt ← add at_ 46
    let nameEnd ← add nameAt nameLen
    let this ← okOr (slice zip nameAt nameEnd) "truncated"
    let next ← add at_ (46 + nameLen + extraLen + commentLen)
    if this ≠ name then scan zip name n next
    else
      if (← u32At zip local_) ≠ some localSignature then throw "bad local header"
      let start ← add (← add (← add local_ 30) (← needWord 2 zip local_ 26)) (← needWord 2 zip local_ 28)
      let data ← okOr (slice zip start (← add start compressed)) "truncated"
      return some { method, data, size }

def find (zip name : List UInt8) : Find (Option Entry) := do
  let earliest := zip.length - (22 + 0xffff)
  let end_ ← okOr (← lastEnd zip earliest (zip.length - 21 - earliest)) "no end of central directory"
  let count ← needWord 2 zip end_ 10
  let at_ ← needWord 4 zip end_ 16
  scan zip name count at_

/-! ## Nothing overflows -/

theorem wordAt_returns {k : Nat} {zip : List UInt8} {at_ : Nat} (h : at_ + k < 2 ^ 64) :
    Returns (wordAt k zip at_) fun o => ∀ n, o = some n → n < 256 ^ k := by
  refine (Returns.add h).bind fun hi hhi => .pure fun n hn => ?_
  obtain ⟨bs, hbs, rfl⟩ := Option.map_eq_some_iff.1 hn
  have hlen := slice_length hbs
  have hlt := fromLeBytes_lt bs
  rwa [show bs.length = k by omega] at hlt

theorem needWord_returns {k : Nat} {zip : List UInt8} {at_ offset : Nat} (h : at_ + offset + k < 2 ^ 64) :
    Returns (needWord k zip at_ offset) (· < 256 ^ k) := by
  refine (Returns.add (by omega)).bind fun there hthere => ?_
  subst hthere
  exact (wordAt_returns h).bind fun o ho => .okOr ho

theorem lastEnd_returns {zip : List UInt8} {lo n : Nat} (h : lo + n + 4 < 2 ^ 64) :
    Returns (lastEnd zip lo n) fun o => ∀ p, o = some p → p < lo + n := by
  induction n with
  | zero => exact .pure nofun
  | succ n ih =>
    refine (wordAt_returns (k := 4) (by omega)).bind fun o _ => ?_
    split
    · refine .pure fun p hp => ?_
      cases hp
      omega
    · exact (ih (by omega)).mono fun o ho p hp => by have := ho p hp; omega

/-- An entry of the directory is no longer than this. -/
def entryMax : Nat := 46 + 3 * 65535

theorem scan_returns (zip name : List UInt8) {n at_ : Nat} (h : at_ + n * entryMax + 2 ^ 33 < 2 ^ 64) :
    Returns (scan zip name n at_) fun _ => True := by
  induction n generalizing at_ with
  | zero => exact .pure trivial
  | succ n ih =>
    have hmax : (n + 1) * entryMax = n * entryMax + 196651 := by rw [Nat.succ_mul]; rfl
    rw [scan]
    refine (wordAt_returns (k := 4) (by omega)).bind fun sig _ => ?_
    split
    · exact .throw _ _
    have hword : ∀ k offset, offset + k < 64 → Returns (needWord k zip at_ offset) (· < 256 ^ k) := fun k offset _ =>
      needWord_returns (by omega)
    refine (hword 2 10 (by omega)).bind fun method _ => ?_
    refine (hword 4 20 (by omega)).bind fun compressed hcompressed => ?_
    refine (hword 4 24 (by omega)).bind fun size _ => ?_
    refine (hword 2 28 (by omega)).bind fun nameLen hname => ?_
    refine (hword 2 30 (by omega)).bind fun extraLen hextra => ?_
    refine (hword 2 32 (by omega)).bind fun commentLen hcomment => ?_
    refine (hword 4 42 (by omega)).bind fun local_ hlocal => ?_
    refine (Returns.add (by omega)).bind fun nameAt hnameAt => ?_
    refine (Returns.add (by omega)).bind fun nameEnd _ => ?_
    refine (Returns.okOr fun _ _ => trivial).bind fun this (_ : True) => ?_
    refine (Returns.add (by omega)).bind fun next hnext => ?_
    split
    · exact ih (by omega)
    · refine (wordAt_returns (k := 4) (by omega)).bind fun sig' _ => ?_
      split
      · exact .throw _ _
      · refine (Returns.add (by omega)).bind fun past hpast => ?_
        refine (needWord_returns (k := 2) (by omega)).bind fun nameLen' hname' => ?_
        refine (Returns.add (by omega)).bind fun past' hpast' => ?_
        refine (needWord_returns (k := 2) (by omega)).bind fun extraLen' hextra' => ?_
        refine (Returns.add (by omega)).bind fun start hstart => ?_
        refine (Returns.add (by omega)).bind fun dataEnd _ => ?_
        exact (Returns.okOr fun _ _ => trivial).bind fun data (_ : True) => .pure trivial

theorem find_returns {zip : List UInt8} (h : zip.length < 2 ^ 63) (name : List UInt8) :
    Returns (find zip name) fun _ => True := by
  refine (lastEnd_returns (by omega)).bind fun o ho => (Returns.okOr ho).bind fun p hp => ?_
  refine (needWord_returns (k := 2) (by omega)).bind fun count hcount => ?_
  refine (needWord_returns (k := 4) (by omega)).bind fun at_ hat => ?_
  have hmax : count * entryMax ≤ 65535 * entryMax := Nat.mul_le_mul_right _ (Nat.le_of_lt_succ hcount)
  exact scan_returns zip name (by unfold entryMax at *; omega)

end Vento.Linux.Zip
