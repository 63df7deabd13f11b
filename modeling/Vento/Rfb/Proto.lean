import Mathlib.Algebra.Ring.Int.Defs
import Mathlib.Data.List.Induction
import Vento.Lib.Parse
/-!
# Wire primitives

The reader of `rfb/src/proto.rs` over the bytes the server sends, the errors of
`error.rs`, and the pixel of `pixel.rs`. The widths are those of a 64-bit
`usize`; a `u16` or `u32` field is the natural number it is used as.
-/

namespace Vento.Rfb

open Vento.Lib Parser

/-! ## Errors -/

inductive IoError where
  | unexpectedEof
  | invalidData (text : String)
deriving DecidableEq, Repr

/-- Why a session ended. -/
inductive Error where
  | io (e : IoError)
  | refused (why : String)
  | authFailed (why : String)
  | cancelled
  | untrusted
  | unsupported (what : String)
  | protocol (what : String)
deriving DecidableEq, Repr

/-- How a call ends without a result: with an error, by a panic (an index or a
slice out of bounds), or not at all. -/
inductive Failure where
  | error (e : Error)
  | panic
  | hangs
deriving DecidableEq, Repr

def Failure.IsError (f : Failure) : Prop := ∃ e, f = .error e

abbrev Reader := Parser Failure UInt8

/-- A bounds-checked operation in the middle of a read. -/
def orPanic {α : Type} : Option α → Reader α
  | some a => pure a
  | none => Parser.fail .panic

/-! ## Fixed-width reads -/

def eof : Failure := .error (.io .unexpectedEof)

/-- `from_be_bytes`. -/
def fromBeBytes (bs : List UInt8) : Nat := bs.foldl (fun n b => n * 256 + b.toNat) 0

/-- `to_be_bytes`, of a field of `k` bytes. -/
def toBeBytes : Nat → Nat → List UInt8
  | 0, _ => []
  | k + 1, n => toBeBytes k (n / 256) ++ [UInt8.ofNat n]

/-- `chunks_exact(4)`, each chunk a word. -/
def words : List UInt8 → List Nat
  | a :: b :: c :: d :: rest => fromBeBytes [a, b, c, d] :: words rest
  | _ => []

def u8 : Reader UInt8 := next eof

def bytes (n : Nat) : Reader (List UInt8) := takeN eof n

def u16 : Reader Nat := fromBeBytes <$> bytes 2

def u32 : Reader Nat := fromBeBytes <$> bytes 4

/-- `as i32`. -/
def asI32 (n : Nat) : Int := if n < 2 ^ 31 then n else n - 2 ^ 32

/-- `as u32` of an `i32`. -/
def ofI32 (i : Int) : Nat := (i % 2 ^ 32).toNat

def i32 : Reader Int := asI32 <$> u32

def skip (n : Nat) : Reader Unit := (fun _ => ()) <$> bytes n

def maxString : Nat := 1 <<< 20

/-- A text, as its Unicode scalar values. -/
abbrev Text := List Char

/-- Bytes as ISO 8859-1. -/
def latin1 (bs : List UInt8) : Text := bs.map fun b => Char.ofNat b.toNat

/-- The other direction, with `?` for what Latin-1 has not. -/
def toLatin1 (text : Text) : List UInt8 := text.map fun c => if c.toNat < 256 then UInt8.ofNat c.toNat else 63

/-- A `u32` length and that many bytes. -/
def string : Reader Text := do
  let n ← u32
  if n > maxString then Parser.fail (.error (.io (.invalidData s!"string of {n} bytes")))
  else latin1 <$> bytes n

/-! ## Pixels -/

structure Rgb where
  r : UInt8
  g : UInt8
  b : UInt8
deriving DecidableEq, Repr

/-- `r, g, b` as they arrive, into a framebuffer word. -/
def pack (c : Rgb) : UInt32 :=
  (0xff000000 : UInt32) ||| (c.b.toUInt32 <<< 16) ||| (c.g.toUInt32 <<< 8) ||| c.r.toUInt32

/-- One `PIXEL` in the format this client asks for, opaque: the fourth byte is
padding. -/
def pixel : Reader UInt32 := do
  let r ← u8
  let g ← u8
  let b ← u8
  let _ ← u8
  return pack ⟨r, g, b⟩

/-- The four bytes of a pixel of colour `c`. -/
def IsPixel (c : Rgb) (bs : List UInt8) : Prop := ∃ pad, bs = [c.r, c.g, c.b, pad]

/-! ## What they read -/

theorem fromBeBytes_append (bs : List UInt8) (b : UInt8) :
    fromBeBytes (bs ++ [b]) = fromBeBytes bs * 256 + b.toNat := by
  simp [fromBeBytes, List.foldl_append]

@[simp]
theorem toBeBytes_length (k n : Nat) : (toBeBytes k n).length = k := by
  induction k generalizing n with
  | zero => rfl
  | succ k ih => simp [toBeBytes, ih]

theorem fromBeBytes_toBeBytes {k n : Nat} (h : n < 256 ^ k) : fromBeBytes (toBeBytes k n) = n := by
  induction k generalizing n with
  | zero => simp [toBeBytes, fromBeBytes] at *; omega
  | succ k ih =>
    have hlt : n / 256 < 256 ^ k := Nat.div_lt_of_lt_mul (by rw [Nat.pow_succ, Nat.mul_comm] at h; exact h)
    rw [toBeBytes, fromBeBytes_append, ih hlt]
    simp only [UInt8.toNat_ofNat']
    omega

/-- A digit of a number given by its digits, the highest first. -/
theorem digit_foldl {b : Nat} (ds : List Nat) (hds : ∀ d ∈ ds, d < b) {slot : Nat} (hslot : slot < ds.length) :
    ds.foldl (fun n d => n * b + d) 0 / b ^ (ds.length - 1 - slot) % b = ds[slot] := by
  induction ds using List.reverseRecOn with
  | nil => simp at hslot
  | append_singleton ds d ih =>
    have hd : d < b := hds d (by simp)
    simp only [List.foldl_append, List.foldl_cons, List.foldl_nil, List.length_append, List.length_singleton]
    rcases Nat.lt_succ_iff_lt_or_eq.1 (by simpa using hslot : slot < ds.length + 1) with hlt | rfl
    · rw [List.getElem_append_left hlt, ← ih (fun d hd => hds d (by simp [hd])) hlt,
        show ds.length + 1 - 1 - slot = ds.length - 1 - slot + 1 by omega, Nat.pow_succ', ← Nat.div_div_eq_div_mul]
      rw [Nat.mul_comm _ b, Nat.mul_add_div (by omega), Nat.div_eq_of_lt hd, Nat.add_zero]
    · simp [Nat.mod_eq_of_lt hd, Nat.mul_comm _ b]

theorem foldl_digits_lt {b : Nat} (ds : List Nat) (hds : ∀ d ∈ ds, d < b) :
    ds.foldl (fun n d => n * b + d) 0 < b ^ ds.length := by
  induction ds using List.reverseRecOn with
  | nil => simp
  | append_singleton ds d ih =>
    have hd : d < b := hds d (by simp)
    have hlt := ih fun d hd => hds d (by simp [hd])
    simp only [List.foldl_append, List.foldl_cons, List.foldl_nil, List.length_append, List.length_singleton,
      Nat.pow_succ]
    have := Nat.mul_le_mul_right b (Nat.succ_le_of_lt hlt)
    rw [Nat.succ_mul] at this
    omega

theorem fromBeBytes_lt (bs : List UInt8) : fromBeBytes bs < 256 ^ bs.length := by
  have hlt := foldl_digits_lt (bs.map UInt8.toNat) fun d hd => by
    obtain ⟨b, -, rfl⟩ := List.mem_map.1 hd
    exact b.toNat_lt
  rwa [List.foldl_map, List.length_map] at hlt

theorem ofI32_lt (i : Int) : ofI32 i < 2 ^ 32 := by
  unfold ofI32
  omega

theorem asI32_ofI32 {i : Int} (h1 : -2 ^ 31 ≤ i) (h2 : i < 2 ^ 31) : asI32 (ofI32 i) = i := by
  unfold asI32 ofI32
  split <;> omega

theorem parses_u8 (b : UInt8) : Parses u8 [b] b := Parses.next eof b

theorem parses_bytes (bs : List UInt8) : Parses (bytes bs.length) bs bs := Parses.takeN eof bs

theorem parses_field {k n : Nat} (h : n < 256 ^ k) : Parses (fromBeBytes <$> bytes k) (toBeBytes k n) n := by
  have hp := (parses_bytes (toBeBytes k n)).map fromBeBytes
  rwa [toBeBytes_length, fromBeBytes_toBeBytes h] at hp

theorem parses_u16 {n : Nat} (h : n < 2 ^ 16) : Parses u16 (toBeBytes 2 n) n := parses_field (by omega)

theorem parses_u32 {n : Nat} (h : n < 2 ^ 32) : Parses u32 (toBeBytes 4 n) n := parses_field (by omega)

theorem parses_i32 {i : Int} (h1 : -2 ^ 31 ≤ i) (h2 : i < 2 ^ 31) : Parses i32 (toBeBytes 4 (ofI32 i)) i := by
  have hp := (parses_u32 (ofI32_lt i)).map asI32
  rwa [asI32_ofI32 h1 h2] at hp

theorem parses_skip (bs : List UInt8) : Parses (skip bs.length) bs () := (parses_bytes bs).map _

theorem parses_pixel {c : Rgb} {bs : List UInt8} (h : IsPixel c bs) : Parses pixel bs (pack c) := by
  obtain ⟨pad, rfl⟩ := h
  exact fun _ => rfl

theorem words_length {n : Nat} {bs : List UInt8} (h : bs.length = 4 * n) : (words bs).length = n := by
  induction n generalizing bs with
  | zero =>
    have hnil : bs = [] := by simpa using h
    simp [hnil, words]
  | succ n ih =>
    match bs with
    | [] | [_] | [_, _] | [_, _, _] => simp only [List.length_cons, List.length_nil] at h; omega
    | a :: b :: c :: d :: rest =>
      simp only [List.length_cons] at h
      have hrest := @ih rest (by omega)
      simp [words, hrest]

theorem u8_eq_ok {bs rest : List UInt8} {b : UInt8} : u8 bs = .ok (b, rest) ↔ bs = b :: rest := by
  cases bs with
  | nil => exact ⟨nofun, nofun⟩
  | cons c bs =>
    constructor
    · intro h
      cases h
      rfl
    · intro h
      cases h
      rfl

theorem bytes_eq_ok {n : Nat} {bs a rest : List UInt8} :
    bytes n bs = .ok (a, rest) ↔ bs = a ++ rest ∧ a.length = n := by
  constructor
  · intro h
    unfold bytes takeN at h
    split at h
    · cases h
      exact ⟨(List.take_append_drop n bs).symm, by rw [List.length_take]; omega⟩
    · cases h
  · rintro ⟨rfl, rfl⟩
    exact parses_bytes a rest

theorem u32_eq_ok {bs rest : List UInt8} {n : Nat} :
    u32 bs = .ok (n, rest) ↔ ∃ word, bs = word ++ rest ∧ word.length = 4 ∧ n = fromBeBytes word := by
  rw [u32, map_eq_ok]
  constructor
  · rintro ⟨word, hword, rfl⟩
    obtain ⟨rfl, hlen⟩ := bytes_eq_ok.1 hword
    exact ⟨word, rfl, hlen, rfl⟩
  · rintro ⟨word, rfl, hlen, rfl⟩
    exact ⟨word, bytes_eq_ok.2 ⟨rfl, hlen⟩, rfl⟩

theorem words_append {word bs : List UInt8} (h : word.length = 4) :
    words (word ++ bs) = fromBeBytes word :: words bs := by
  match word, h with
  | [a, b, c, d], _ => rfl

/-- A list of words, read one by one. -/
theorem u32s_eq_ok {n : Nat} {bs rest : List UInt8} {out : List Nat} :
    repeatM n (fun out => do return out ++ [← u32]) [] bs = .ok (out, rest) ↔
      ∃ list, bs = list ++ rest ∧ list.length = 4 * n ∧ out = words list := by
  suffices h : ∀ acc, repeatM n (fun out => do return out ++ [← u32]) acc bs = .ok (out, rest) ↔
      ∃ list, bs = list ++ rest ∧ list.length = 4 * n ∧ out = acc ++ words list from h []
  induction n generalizing bs with
  | zero =>
    intro acc
    rw [Parser.repeatM, pure_eq_ok]
    constructor
    · rintro ⟨rfl, rfl⟩
      exact ⟨[], rfl, rfl, by simp [words]⟩
    · rintro ⟨list, rfl, hlen, rfl⟩
      rw [List.length_eq_zero_iff.1 (by omega : list.length = 0)]
      simp [words]
  | succ n ih =>
    intro acc
    rw [Parser.repeatM, bind_eq_ok]
    simp only [bind_eq_ok, pure_eq_ok, u32_eq_ok]
    constructor
    · rintro ⟨_, bs', ⟨_, _, ⟨word, rfl, hword, rfl⟩, rfl, rfl⟩, hrest⟩
      obtain ⟨list, rfl, hlist, rfl⟩ := (ih _).1 hrest
      refine ⟨word ++ list, by rw [List.append_assoc], by rw [List.length_append]; omega, ?_⟩
      rw [words_append hword, List.append_assoc, List.singleton_append]
    · rintro ⟨list, rfl, hlist, rfl⟩
      have hword : (list.take 4).length = 4 := by
        rw [List.length_take]
        omega
      have hsplit : list = list.take 4 ++ list.drop 4 := (List.take_append_drop 4 list).symm
      refine ⟨_, list.drop 4 ++ rest, ⟨_, _, ⟨list.take 4, ?_, hword, rfl⟩, rfl, rfl⟩,
        (ih _).2 ⟨list.drop 4, rfl, ?_, ?_⟩⟩
      · rw [← List.append_assoc, ← hsplit]
      · rw [List.length_drop]
        omega
      · rw [List.append_assoc, List.singleton_append, ← words_append hword, ← hsplit]

/-! ## On any bytes -/

theorem isError_eof : eof.IsError := ⟨_, rfl⟩

theorem isError_protocol (what : String) : (Failure.error (.protocol what)).IsError := ⟨_, rfl⟩

theorem sat_u8 : Sat u8 (fun _ => True) Failure.IsError := Sat.next isError_eof

theorem sat_bytes (n : Nat) : Sat (bytes n) (fun bs => bs.length = n) Failure.IsError := Sat.takeN isError_eof n

theorem sat_u16 : Sat u16 (· < 2 ^ 16) Failure.IsError :=
  (sat_bytes 2).map fun bs h => by simpa [h] using fromBeBytes_lt bs

theorem sat_u32 : Sat u32 (· < 2 ^ 32) Failure.IsError :=
  (sat_bytes 4).map fun bs h => by simpa [h] using fromBeBytes_lt bs

theorem sat_i32 : Sat i32 (fun _ => True) Failure.IsError := sat_u32.map fun _ _ => trivial

theorem sat_skip (n : Nat) : Sat (skip n) (fun _ => True) Failure.IsError := (sat_bytes n).map fun _ _ => trivial

theorem sat_string : Sat string (fun _ => True) Failure.IsError := by
  refine sat_u32.bind fun n _ => ?_
  split
  · exact Sat.fail ⟨_, rfl⟩
  · exact (sat_bytes n).map fun _ _ => trivial

theorem sat_pixel : Sat pixel (fun _ => True) Failure.IsError :=
  sat_u8.bind fun _ _ => sat_u8.bind fun _ _ => sat_u8.bind fun _ _ => sat_u8.bind fun _ _ => Sat.pure trivial

/-- A checked operation that is in bounds. -/
theorem sat_orPanic {α : Type} {o : Option α} {Q : α → Prop} {E : Failure → Prop} (h : ∃ a, o = some a ∧ Q a) :
    Sat (orPanic o) Q E := by
  obtain ⟨a, rfl, ha⟩ := h
  exact Sat.pure ha

end Vento.Rfb
