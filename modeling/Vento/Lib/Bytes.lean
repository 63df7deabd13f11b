import Mathlib.Algebra.Ring.Nat
import Mathlib.Data.List.Basic
import Mathlib.Tactic.Common
/-!
# Bytes on the wire

Little-endian words, a list cut into pieces of one length, and text read from
bytes that need not be UTF-8.
-/

namespace Vento.Lib

/-! ## Words, the low byte first -/

/-- `from_le_bytes`. -/
def fromLeBytes : List UInt8 → Nat
  | [] => 0
  | b :: bs => b.toNat + 256 * fromLeBytes bs

/-- `to_le_bytes`, of a field of `k` bytes. -/
def toLeBytes : Nat → Nat → List UInt8
  | 0, _ => []
  | k + 1, n => UInt8.ofNat n :: toLeBytes k (n / 256)

@[simp]
theorem toLeBytes_length (k n : Nat) : (toLeBytes k n).length = k := by
  induction k generalizing n with
  | zero => rfl
  | succ k ih => simp [toLeBytes, ih]

theorem fromLeBytes_toLeBytes {k n : Nat} (h : n < 256 ^ k) : fromLeBytes (toLeBytes k n) = n := by
  induction k generalizing n with
  | zero =>
    rw [Nat.pow_zero] at h
    simp only [toLeBytes, fromLeBytes]
    omega
  | succ k ih =>
    have hlt : n / 256 < 256 ^ k := Nat.div_lt_of_lt_mul (by rwa [Nat.pow_succ, Nat.mul_comm] at h)
    rw [toLeBytes, fromLeBytes, ih hlt, UInt8.toNat_ofNat']
    omega

theorem fromLeBytes_lt (bs : List UInt8) : fromLeBytes bs < 256 ^ bs.length := by
  induction bs with
  | nil => simp [fromLeBytes]
  | cons b bs ih =>
    have hb := b.toNat_lt
    rw [fromLeBytes, List.length_cons, Nat.pow_succ]
    omega

theorem toLeBytes_fromLeBytes (bs : List UInt8) : toLeBytes bs.length (fromLeBytes bs) = bs := by
  induction bs with
  | nil => rfl
  | cons b bs ih =>
    have hb := b.toNat_lt
    have hdiv : (b.toNat + 256 * fromLeBytes bs) / 256 = fromLeBytes bs := by omega
    have hmod : UInt8.ofNat (b.toNat + 256 * fromLeBytes bs) = b := by
      apply UInt8.toNat_inj.1
      rw [UInt8.toNat_ofNat']
      omega
    rw [List.length_cons, fromLeBytes, toLeBytes, hdiv, hmod, ih]

/-! ## Pieces of one length -/

/-- `chunks`: pieces of `n`, the last one of what is left. -/
def chunks {α : Type} (n : Nat) (xs : List α) : List (List α) :=
  if n = 0 ∨ xs = [] then [] else xs.take n :: chunks n (xs.drop n)
termination_by xs.length
decreasing_by
  have : xs ≠ [] := by tauto
  have := List.length_pos_iff.2 this
  rw [List.length_drop]
  omega

theorem flatten_chunks {α : Type} {n : Nat} (hn : 0 < n) (xs : List α) : (chunks n xs).flatten = xs := by
  fun_induction chunks n xs with
  | case1 xs h =>
    rcases h with h | h
    · omega
    · simp [h]
  | case2 xs h ih => rw [List.flatten_cons, ih, List.take_append_drop]

/-- The pieces of what was put together out of pieces of one length. -/
theorem chunks_flatMap {α β : Type} {n : Nat} (hn : 0 < n) {f : β → List α} (hf : ∀ b, (f b).length = n) (bs : List β) :
    chunks n (bs.flatMap f) = bs.map f := by
  induction bs with
  | nil =>
    rw [List.flatMap_nil, chunks]
    simp
  | cons b bs ih =>
    have hne : f b ++ bs.flatMap f ≠ [] := List.append_ne_nil_of_left_ne_nil (List.ne_nil_of_length_pos (by rw [hf]; exact hn)) _
    rw [List.flatMap_cons, chunks, if_neg (not_or.2 ⟨Nat.pos_iff_ne_zero.1 hn, hne⟩), List.take_left' (hf b), List.drop_left' (hf b),
      ih, List.map_cons]

theorem length_le_of_mem_chunks {α : Type} {n : Nat} {xs p : List α} (h : p ∈ chunks n xs) : p.length ≤ n := by
  fun_induction chunks n xs with
  | case1 xs _ => cases h
  | case2 xs _ ih =>
    rcases List.mem_cons.1 h with rfl | h
    · exact List.length_take_le _ _
    · exact ih h

/-! ## Text -/

/-- Whether `b` continues a character, where only those from `lo` to `hi` may. -/
def continues (lo hi : UInt8) (b : Option UInt8) : Bool :=
  match b with
  | some b => lo ≤ b && b ≤ hi
  | none => false

/-- The second bytes a character may have after its first one. -/
def secondByte (first : UInt8) : UInt8 × UInt8 :=
  if first = 0xe0 then (0xa0, 0xbf)
  else if first = 0xed then (0x80, 0x9f)
  else if first = 0xf0 then (0x90, 0xbf)
  else if first = 0xf4 then (0x80, 0x8f)
  else (0x80, 0xbf)

/-- How many bytes a character has by its first one; none for a byte that
starts no character. -/
def utf8CharWidth (first : UInt8) : Nat :=
  if first < 0x80 then 1
  else if 0xc2 ≤ first ∧ first ≤ 0xdf then 2
  else if 0xe0 ≤ first ∧ first ≤ 0xef then 3
  else if 0xf0 ≤ first ∧ first ≤ 0xf4 then 4
  else 0

/-- How many of the bytes after `first` belong to its character, up to the
first that does not fit, and whether they make it whole. -/
def utf8Tail (first : UInt8) (bs : List UInt8) : Nat × Bool :=
  let (lo, hi) := secondByte first
  match utf8CharWidth first with
  | 0 => (0, false)
  | 1 => (0, true)
  | w + 2 =>
    if continues lo hi bs[0]? then
      if w = 0 then (1, true)
      else if continues 0x80 0xbf bs[1]? then
        if w = 1 then (2, true)
        else if continues 0x80 0xbf bs[2]? then (3, true)
        else (2, false)
      else (1, false)
    else (0, false)

/-- The character of a first byte and its continuations. -/
def utf8Char (first : UInt8) (tail : List UInt8) : Char :=
  let lead := if tail.length = 0 then first.toNat else first.toNat % 2 ^ (6 - tail.length)
  Char.ofNat (tail.foldl (fun n b => n * 64 + b.toNat % 64) lead)

/-- The characters of `bs` past the first `skip` bytes, which are read already. -/
def lossyFrom : Nat → List UInt8 → List Char
  | _, [] => []
  | skip + 1, _ :: bs => lossyFrom skip bs
  | 0, b :: bs =>
    match utf8Tail b bs with
    | (n, true) => utf8Char b (bs.take n) :: lossyFrom n bs
    | (n, false) => '\uFFFD' :: lossyFrom n bs

/-- `String::from_utf8_lossy`: each longest start of a character that is cut
short, and each byte that starts none, is one U+FFFD. -/
def fromUtf8Lossy (bs : List UInt8) : List Char := lossyFrom 0 bs

example : fromUtf8Lossy [0x61, 0xe2, 0x82, 0xac, 0xe2, 0x82, 0x62, 0xff] = ['a', '€', '\uFFFD', 'b', '\uFFFD'] := by
  decide

end Vento.Lib
