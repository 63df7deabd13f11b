import Mathlib.Data.List.DropRight
import Mathlib.Tactic.NormNum
import Vento.Lib.Bytes
import Vento.Lib.Raster
/-!
# Addresses from the rendezvous server

`unmangle` of `rustdesk/src/rendezvous.rs`, and the server's encoding that it undoes, which the source transcribes for
its tests. An IPv4 address and a port are sums with a timestamp, in fields of a number of 128 bits that is sent without
its trailing zeros; an IPv6 address and a port are eighteen bytes.

Arithmetic that is not checked cannot go out of range here: `none` is a slice's check that failed.
-/

namespace Vento.Rustdesk

open Vento.Lib

abbrev Ipv4Addr := Vector UInt8 4

abbrev Ipv6Addr := Vector UInt8 16

inductive SocketAddr where
  | v4 (ip : Ipv4Addr) (port : UInt16)
  | v6 (ip : Ipv6Addr) (port : UInt16)
deriving DecidableEq, Repr

/-- `checked_sub`. -/
def checkedSub (a b : Nat) : Option Nat := if b ≤ a then some (a - b) else none

def notTheirs : String := "the server sent an address that does not decode"

/-- The four octets of a number, the low one first. -/
def octets (n : Nat) : Ipv4Addr := ⟨(toLeBytes 4 n).toArray, by simp⟩

/-- What `unmangle` makes of the number. -/
def unmangleNumber (n : Nat) : Except String SocketAddr :=
  let tm := (n >>> 17) &&& (2 ^ 32 - 1)
  match (checkedSub (n >>> 49) tm).filter (· < 2 ^ 32) with
  | none => .error notTheirs
  | some ip =>
    -- The mask is wider than the port's seventeen bits; the cast drops what it has of the timestamp.
    match checkedSub (n &&& 0xffffff) (tm &&& 0xffff) with
    | none => .error notTheirs
    | some port => .ok (.v4 (octets ip) (UInt16.ofNat port))

def unmangle (bytes : List UInt8) : Option (Except String SocketAddr) :=
  if h : bytes.length = 18 then
    some (.ok (.v6 ⟨(bytes.take 16).toArray, by simp [h]⟩ (UInt16.ofNat (fromLeBytes (bytes.drop 16)))))
  else if bytes.length > 16 then some (.error (toString bytes.length ++ " bytes is not one of their addresses"))
  else do
    let padded ← copyFromSlice (List.replicate 16 0) 0 bytes.length bytes
    return unmangleNumber (fromLeBytes padded)

/-! ## The server's encoding -/

def mangle (ip : Ipv4Addr) (port : UInt16) (micros : UInt32) : List UInt8 :=
  let tm := micros.toNat
  let v := ((fromLeBytes ip.toList + tm) <<< 49) ||| (tm <<< 17) ||| (port.toNat + (tm &&& 0xffff))
  (toLeBytes 16 v).rdropWhile (· = 0)

def mangle6 (ip : Ipv6Addr) (port : UInt16) : List UInt8 := ip.toList ++ toLeBytes 2 port.toNat

/-! ## It is undone -/

theorem fromLeBytes_append (a b : List UInt8) : fromLeBytes (a ++ b) = fromLeBytes a + 256 ^ a.length * fromLeBytes b := by
  induction a with
  | nil => simp [fromLeBytes]
  | cons x a ih =>
    rw [List.cons_append, fromLeBytes, fromLeBytes, ih, List.length_cons, Nat.pow_succ, Nat.mul_add, Nat.mul_comm (256 ^ a.length) 256,
      Nat.mul_assoc, Nat.add_assoc]

theorem fromLeBytes_zeros (k : Nat) : fromLeBytes (List.replicate k 0) = 0 := by
  induction k with
  | zero => rfl
  | succ k ih =>
    rw [List.replicate_succ, fromLeBytes, ih]
    rfl

/-- What is trimmed comes back when the bytes are padded. -/
theorem fromLeBytes_trimmed (bs : List UInt8) (k : Nat) :
    fromLeBytes (bs.rdropWhile (· = 0) ++ List.replicate k 0) = fromLeBytes bs := by
  rw [fromLeBytes_append, fromLeBytes_zeros, Nat.mul_zero, Nat.add_zero]
  induction bs using List.reverseRecOn with
  | nil => rfl
  | append_singleton bs b ih =>
    by_cases hb : b = 0
    · subst hb
      rw [List.rdropWhile_concat_pos _ _ _ (by simp), ih, fromLeBytes_append]
      simp [fromLeBytes]
    · rw [List.rdropWhile_concat_neg _ _ _ (by simpa using hb)]

/-- What no slice of is too long is padded to sixteen bytes. -/
theorem padded_eq {bytes : List UInt8} (h : bytes.length ≤ 16) :
    copyFromSlice (List.replicate 16 0) 0 bytes.length bytes = some (bytes ++ List.replicate (16 - bytes.length) 0) := by
  rw [copyFromSlice_eq_some]
  refine ⟨Nat.zero_le _, by simpa using h, rfl, ?_⟩
  rw [List.take_zero, List.nil_append, List.drop_replicate]

/-- No slice of the bytes is out of range, whatever they are. -/
theorem unmangle_isSome (bytes : List UInt8) : (unmangle bytes).isSome := by
  unfold unmangle
  split
  · rfl
  · split
    · rfl
    · next hlen =>
      rw [padded_eq (Nat.not_lt.1 hlen)]
      rfl

theorem octets_fromLeBytes (ip : Ipv4Addr) : octets (fromLeBytes ip.toList) = ip := by
  apply Vector.toList_inj.1
  have hbytes := toLeBytes_fromLeBytes ip.toList
  rw [Vector.length_toList] at hbytes
  exact hbytes

section
variable {ip tm port : Nat} (hip : ip < 2 ^ 32) (htm : tm < 2 ^ 32) (hport : port < 2 ^ 16)

/-- The number that is sent. -/
def number (ip tm port : Nat) : Nat := (ip + tm) * 2 ^ 49 + tm * 2 ^ 17 + (port + tm % 2 ^ 16)

theorem and_ffff (n : Nat) : n &&& 0xffff = n % 2 ^ 16 := by
  have hlit : 2 ^ 16 - 1 = 0xffff := by norm_num
  rw [← hlit]
  exact Nat.and_two_pow_sub_one_eq_mod n 16

include htm hport in
/-- The fields do not meet, with what the port and its share of the timestamp carry. -/
theorem fields : ((ip + tm) <<< 49) ||| (tm <<< 17) ||| (port + (tm &&& 0xffff)) = number ip tm port := by
  have hlow : port + tm % 2 ^ 16 < 2 ^ 17 := by omega
  have hstamp : tm <<< 17 < 2 ^ 49 := by
    rw [Nat.shiftLeft_eq]
    omega
  have hshift : (ip + tm) <<< 49 + tm <<< 17 = ((ip + tm) * 2 ^ 32 + tm) <<< 17 := by
    simp only [Nat.shiftLeft_eq]
    omega
  rw [and_ffff, ← Nat.shiftLeft_add_eq_or_of_lt hstamp, hshift, ← Nat.shiftLeft_add_eq_or_of_lt hlow, Nat.shiftLeft_eq, number]
  omega

include hip htm hport in
theorem number_lt : number ip tm port < 256 ^ 16 := by
  unfold number
  have hpow : (256 : Nat) ^ 16 = 2 ^ 79 * 2 ^ 49 := by norm_num
  rw [hpow]
  omega

include htm hport in
theorem number_top : number ip tm port >>> 49 = ip + tm := by
  rw [Nat.shiftRight_eq_div_pow, number]
  omega

include htm hport in
theorem number_stamp : (number ip tm port >>> 17) &&& (2 ^ 32 - 1) = tm := by
  have hhigh : number ip tm port / 2 ^ 17 = (ip + tm) * 2 ^ 32 + tm := by
    rw [number]
    omega
  rw [Nat.and_two_pow_sub_one_eq_mod, Nat.shiftRight_eq_div_pow, hhigh]
  omega

include hport in
/-- The timestamp's low seven bits stand above the port's seventeen. -/
theorem number_low : number ip tm port &&& 0xffffff = tm % 2 ^ 7 * 2 ^ 17 + (port + tm % 2 ^ 16) := by
  have hmask : number ip tm port &&& (2 ^ 24 - 1) = number ip tm port % 2 ^ 24 := Nat.and_two_pow_sub_one_eq_mod _ 24
  have hlit : 2 ^ 24 - 1 = 0xffffff := by norm_num
  rw [← hlit, hmask, number]
  omega

end

theorem fromLeBytes_octets_lt (ip : Ipv4Addr) : fromLeBytes ip.toList < 2 ^ 32 := by
  have hlt := fromLeBytes_lt ip.toList
  rw [Vector.length_toList] at hlt
  omega

theorem mangle_eq (ip : Ipv4Addr) (port : UInt16) (micros : UInt32) :
    mangle ip port micros = (toLeBytes 16 (number (fromLeBytes ip.toList) micros.toNat port.toNat)).rdropWhile (· = 0) := by
  have hfields := @fields (fromLeBytes ip.toList) _ _ micros.toNat_lt port.toNat_lt
  exact congrArg (fun v => (toLeBytes 16 v).rdropWhile (· = 0)) hfields

theorem unmangleNumber_eq {n tm ip port : Nat} (htm : (n >>> 17) &&& (2 ^ 32 - 1) = tm)
    (hip : (checkedSub (n >>> 49) tm).filter (· < 2 ^ 32) = some ip)
    (hport : checkedSub (n &&& 0xffffff) (tm &&& 0xffff) = some port) :
    unmangleNumber n = .ok (.v4 (octets ip) (UInt16.ofNat port)) := by
  subst htm
  simp only [unmangleNumber, hip, hport]

theorem unmangleNumber_number (ip : Ipv4Addr) (port : UInt16) (micros : UInt32) :
    unmangleNumber (number (fromLeBytes ip.toList) micros.toNat port.toNat) = .ok (.v4 ip port) := by
  have hip := fromLeBytes_octets_lt ip
  have htm := micros.toNat_lt
  have hport := port.toNat_lt
  have hfst : (checkedSub (number (fromLeBytes ip.toList) micros.toNat port.toNat >>> 49) micros.toNat).filter (· < 2 ^ 32)
      = some (fromLeBytes ip.toList) := by
    rw [number_top htm hport, checkedSub, if_pos (Nat.le_add_left _ _), Nat.add_sub_cancel, Option.filter_some,
      if_pos (decide_eq_true hip)]
  have hsnd : checkedSub (number (fromLeBytes ip.toList) micros.toNat port.toNat &&& 0xffffff) (micros.toNat &&& 0xffff)
      = some (micros.toNat % 2 ^ 7 * 2 ^ 17 + port.toNat) := by
    rw [number_low hport, and_ffff, checkedSub, if_pos (by omega), ← Nat.add_assoc, Nat.add_sub_cancel]
  have hcast : UInt16.ofNat (micros.toNat % 2 ^ 7 * 2 ^ 17 + port.toNat) = port := by
    apply UInt16.toNat_inj.1
    rw [UInt16.toNat_ofNat']
    omega
  rw [unmangleNumber_eq (number_stamp htm hport) hfst hsnd, hcast, octets_fromLeBytes]

theorem unmangle_v4 (ip : Ipv4Addr) (port : UInt16) (micros : UInt32) :
    unmangle (mangle ip port micros) = some (.ok (.v4 ip port)) := by
  have hlt := number_lt (fromLeBytes_octets_lt ip) micros.toNat_lt port.toNat_lt
  have hnumber := unmangleNumber_number ip port micros
  rw [mangle_eq]
  generalize number (fromLeBytes ip.toList) micros.toNat port.toNat = n at hlt hnumber
  generalize hbytes : (toLeBytes 16 n).rdropWhile (· = 0) = bytes
  have hlen : bytes.length ≤ 16 := by
    have hprefix := (List.rdropWhile_prefix (fun b : UInt8 => decide (b = 0)) (toLeBytes 16 n)).length_le
    rw [toLeBytes_length] at hprefix
    exact hbytes ▸ hprefix
  have hvalue : fromLeBytes (bytes ++ List.replicate (16 - bytes.length) 0) = n := by
    rw [← hbytes, fromLeBytes_trimmed, fromLeBytes_toLeBytes hlt]
  unfold unmangle
  rw [dif_neg (by omega), if_neg (by omega), padded_eq hlen, Option.bind_eq_bind, Option.bind_some, hvalue, hnumber]
  rfl

theorem unmangle_v6 (ip : Ipv6Addr) (port : UInt16) : unmangle (mangle6 ip port) = some (.ok (.v6 ip port)) := by
  have hlen : ip.toList.length = 16 := Vector.length_toList
  have hport := port.toNat_lt
  have htake : (mangle6 ip port).take 16 = ip.toList := List.take_left' hlen
  have hdrop : (mangle6 ip port).drop 16 = toLeBytes 2 port.toNat := List.drop_left' hlen
  have hlength : (mangle6 ip port).length = 18 := by rw [mangle6, List.length_append, hlen, toLeBytes_length]
  unfold unmangle
  rw [dif_pos hlength]
  congr 3
  · apply Vector.toList_inj.1
    exact htake
  · rw [hdrop, fromLeBytes_toLeBytes (by omega)]
    exact UInt16.ofNat_toNat

/-- Every address and port come back from their encoding, at any timestamp, and no bytes put the decoder out of range. -/
theorem unmangle_mangle :
    (∀ ip port micros, unmangle (mangle ip port micros) = some (.ok (.v4 ip port))) ∧
    (∀ ip port, unmangle (mangle6 ip port) = some (.ok (.v6 ip port))) ∧
    ∀ bytes, (unmangle bytes).isSome :=
  ⟨unmangle_v4, unmangle_v6, unmangle_isSome⟩

end Vento.Rustdesk
