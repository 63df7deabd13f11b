import Vento.Lib.CStr
import Vento.Rfb.SecurityPolicy
/-!
# Agreeing a version

`handshake_version` of `rfb/src/security.rs`: the server's greeting of twelve bytes, and the answer to it.

The greeting is read as text, and its two numbers as bytes that may have a plus sign:
`Loose` is all that is let through. `version_agreed` says what comes of it.
-/

namespace Vento.Rfb

open Vento.Lib Str

/-! ## Text -/

/-- `split_at_checked`, which counts bytes. -/
def splitAtChecked : Nat → Text → Option (Text × Text)
  | 0, s => some ([], s)
  | _ + 1, [] => none
  | n + 1, c :: s =>
    if c.utf8Size ≤ n + 1 then (splitAtChecked (n + 1 - c.utf8Size) s).map fun p => (c :: p.1, p.2) else none

def stripPrefix (pat s : Text) : Option Text := if pat.isPrefixOf s then some (s.drop pat.length) else none

/-- `parse::<u8>`. -/
def parseU8 (s : Text) : Option UInt8 := (parseU32 s).bind fun n => if n < 256 then some (UInt8.ofNat n) else none

/-- A character of a text's `Debug`, for ISO 8859-1. -/
def escapeDebug (c : Char) : Text :=
  if c = '\x00' then ['\\', '0']
  else if c = '\t' then ['\\', 't']
  else if c = '\n' then ['\\', 'n']
  else if c = '\r' then ['\\', 'r']
  else if c = '"' ∨ c = '\\' then ['\\', c]
  else if c.toNat < 0x20 ∨ (0x7f ≤ c.toNat ∧ c.toNat < 0xa0) ∨ c.toNat = 0xad then
    ['\\', 'u', Char.ofNat 0x7b] ++ Nat.toDigits 16 c.toNat ++ [Char.ofNat 0x7d]
  else [c]

/-! ## The handshake -/

/-- `format!` with `:03`. -/
def threeDigits (n : UInt8) : Text :=
  List.replicate (3 - (Nat.toDigits 10 n.toNat).length) '0' ++ Nat.toDigits 10 n.toNat

def Version.text (v : Version) : List UInt8 :=
  toLatin1 ("RFB ".toList ++ threeDigits v.major ++ ['.'] ++ threeDigits v.minor ++ ['\n'])

def parseVersion (text : Text) : Option Version := do
  let rest ← stripPrefix "RFB ".toList text
  let (major, rest) ← splitAtChecked 3 rest
  let (minor, _) ← splitAtChecked 3 (← stripPrefix ['.'] rest)
  return ⟨← parseU8 major, ← parseU8 minor⟩

def notServer (text : Text) : Error :=
  .protocol (String.ofList ("not an RFB server: ".toList ++ ['"'] ++ text.flatMap escapeDebug ++ ['"']))

/-- The version agreed with a server that has this one. -/
def agreedWith (server : Version) : Version :=
  if server.atLeast .v3_8 then .v3_8 else if server.atLeast .v3_7 then .v3_7 else .v3_3

namespace Handshake

/-- Agrees a version: the highest both ends know, at least 3.3. -/
def handshakeVersion : Handshake Version := do
  let buf ← read (bytes 12)
  let text := latin1 buf
  match parseVersion text with
  | none => fail (notServer text)
  | some server =>
    let agreed := agreedWith server
    write agreed.text
    return agreed

end Handshake

/-! ## Greetings -/

/-- `RFB ddd.ddd` and a byte, with these two numbers. -/
def Announces (greeting : List UInt8) (major minor : Nat) : Prop :=
  ∃ a b last, latin1 greeting = "RFB ".toList ++ a ++ '.' :: b ++ [last] ∧ a.length = 3 ∧ b.length = 3 ∧
    Digits a major ∧ Digits b minor

/-- Three digits, or two after a plus sign. -/
def LooseNumber (s : Text) : Prop :=
  s.length = 3 ∧ ∃ sign digits, s = sign ++ digits ∧ (sign = [] ∨ sign = ['+']) ∧ ∀ c ∈ digits, c.isDigit = true

/-- `RFB ddd.ddd` and a byte, with a plus sign for the first digit of a number or not. -/
def Loose (greeting : List UInt8) : Prop :=
  ∃ a b last, latin1 greeting = "RFB ".toList ++ a ++ '.' :: b ++ [last] ∧ LooseNumber a ∧ LooseNumber b

/-- One version is not above another, each by its major number first. -/
def VersionLe (v w : Nat × Nat) : Prop := v.1 < w.1 ∨ (v.1 = w.1 ∧ v.2 ≤ w.2)

instance (v w : Nat × Nat) : Decidable (VersionLe v w) := inferInstanceAs (Decidable (_ ∨ _))

def Version.pair (v : Version) : Nat × Nat := (v.major.toNat, v.minor.toNat)

def known : List Version := [.v3_3, .v3_7, .v3_8]

/-- The highest known version not above the server's, or the lowest where all are. -/
def HighestKnown (server : Nat × Nat) (agreed : Version) : Prop :=
  agreed ∈ known ∧ (VersionLe agreed.pair server ∨ agreed = .v3_3) ∧
    ∀ v ∈ known, VersionLe v.pair server → VersionLe v.pair agreed.pair

/-! ## Splitting -/

theorem splitAtChecked_sound {n : Nat} {s a b : Text} (h : splitAtChecked n s = some (a, b)) :
    s = a ++ b ∧ (a.map Char.utf8Size).sum = n := by
  induction s generalizing n a b with
  | nil =>
    cases n with
    | zero =>
      cases h
      exact ⟨rfl, rfl⟩
    | succ n => cases h
  | cons c s ih =>
    cases n with
    | zero =>
      cases h
      exact ⟨rfl, rfl⟩
    | succ n =>
      rw [splitAtChecked] at h
      split at h
      · obtain ⟨⟨a', b'⟩, hs, heq⟩ := Option.map_eq_some_iff.1 h
        cases heq
        obtain ⟨rfl, hsum⟩ := ih hs
        refine ⟨rfl, ?_⟩
        rw [List.map_cons, List.sum_cons, hsum]
        omega
      · cases h

theorem splitAtChecked_append {a : Text} (ha : ∀ c ∈ a, c.utf8Size = 1) (b : Text) :
    splitAtChecked a.length (a ++ b) = some (a, b) := by
  induction a with
  | nil =>
    cases b <;> rfl
  | cons c a ih =>
    have hc := ha c List.mem_cons_self
    rw [List.length_cons, List.cons_append, splitAtChecked, if_pos (by omega), hc, Nat.add_sub_cancel,
      ih fun c hc => ha c (List.mem_cons_of_mem _ hc)]
    rfl

theorem utf8Size_of_ascii {c : Char} (hc : c.toNat < 128) : c.utf8Size = 1 :=
  Char.utf8Size_eq_one_iff.2 (UInt32.le_iff_toNat_le.2 (Nat.le_of_lt_succ hc))

theorem utf8Size_digit {c : Char} (hc : c.isDigit = true) : c.utf8Size = 1 :=
  utf8Size_of_ascii (Nat.lt_trans (isDigit_lt hc) (by decide))

theorem sum_utf8Size {s : Text} (h : ∀ c ∈ s, c.utf8Size = 1) :
    (s.map Char.utf8Size).sum = s.length := by
  induction s with
  | nil => rfl
  | cons c s ih =>
    rw [List.map_cons, List.sum_cons, h c List.mem_cons_self, ih fun c hc => h c (List.mem_cons_of_mem _ hc),
      List.length_cons, Nat.add_comm]

theorem stripPrefix_eq_some {pat s rest : Text} : stripPrefix pat s = some rest ↔ s = pat ++ rest := by
  unfold stripPrefix
  constructor
  · intro h
    split at h
    · rename_i hpre
      obtain ⟨t, rfl⟩ := List.isPrefixOf_iff_prefix.1 hpre
      cases h
      rw [List.drop_left]
    · cases h
  · rintro rfl
    rw [if_pos (List.isPrefixOf_iff_prefix.2 (List.prefix_append _ _)), List.drop_left]

/-! ## What is let through -/

theorem digits_of_all {s : Text} {n : Nat} (hne : s ≠ []) (h : s.all Char.isDigit = true) (hn : n = decimal s) : Digits s n :=
  ⟨hne, List.all_eq_true.1 h, hn⟩

theorem parseU8_sound {s : Text} {n : UInt8} (h : parseU8 s = some n) (hsize : (s.map Char.utf8Size).sum = 3) :
    LooseNumber s := by
  obtain ⟨m, hm, -⟩ := Option.bind_eq_some_iff.1 h
  obtain ⟨sign, digits, rfl, hsign, -, hdigits, -, -⟩ := parseU32_eq_some.1 hm
  have hone : ∀ c ∈ sign ++ digits, c.utf8Size = 1 := by
    intro c hc
    rcases List.mem_append.1 hc with hc | hc
    · rcases hsign with rfl | rfl
      · cases hc
      · rw [List.mem_singleton.1 hc]
        rfl
    · exact utf8Size_digit (hdigits c hc)
  exact ⟨(sum_utf8Size hone).symm.trans hsize, sign, digits, rfl, hsign, hdigits⟩

theorem parseU8_digits {s : Text} {n : Nat} (h : Digits s n) (hn : n < 256) : parseU8 s = some (UInt8.ofNat n) := by
  obtain ⟨hne, hdigits, rfl⟩ := h
  have hparse : parseU32 s = some (decimal s) :=
    parseU32_eq_some.2 ⟨[], s, rfl, .inl rfl, hne, hdigits, rfl, by omega⟩
  rw [parseU8, hparse, Option.bind_some, if_pos hn]

theorem latin1_length (bs : List UInt8) : (latin1 bs).length = bs.length := List.length_map _

/-- Only a greeting of the form has its numbers read. -/
theorem loose_of_parseVersion {greeting : List UInt8} (hlen : greeting.length = 12) {v : Version}
    (h : parseVersion (latin1 greeting) = some v) : Loose greeting := by
  obtain ⟨rest, hrfb, h⟩ := Option.bind_eq_some_iff.1 h
  obtain ⟨⟨a, rest'⟩, ha, h⟩ := Option.bind_eq_some_iff.1 h
  obtain ⟨rest'', hdot, h⟩ := Option.bind_eq_some_iff.1 h
  obtain ⟨⟨b, tail⟩, hb, h⟩ := Option.bind_eq_some_iff.1 h
  obtain ⟨major, hmajor, h⟩ := Option.bind_eq_some_iff.1 h
  obtain ⟨minor, hminor, -⟩ := Option.bind_eq_some_iff.1 h
  obtain ⟨rfl, hasize⟩ := splitAtChecked_sound ha
  obtain ⟨rfl, hbsize⟩ := splitAtChecked_sound hb
  have hrfb := stripPrefix_eq_some.1 hrfb
  have hdot := stripPrefix_eq_some.1 hdot
  have hla := parseU8_sound hmajor hasize
  have hlb := parseU8_sound hminor hbsize
  have htail : tail.length = 1 := by
    have := latin1_length greeting
    rw [hrfb, hdot, hlen] at this
    simp only [List.length_append, List.length_singleton, hla.1, hlb.1] at this
    have h4 : "RFB ".toList.length = 4 := by decide
    omega
  obtain ⟨last, rfl⟩ := List.length_eq_one_iff.1 htail
  refine ⟨a, b, last, ?_, hla, hlb⟩
  rw [hrfb, hdot]
  simp only [List.append_assoc, List.cons_append, List.nil_append]

theorem parseVersion_announced {greeting : List UInt8} {major minor : Nat} (h : Announces greeting major minor)
    (hmajor : major < 256) (hminor : minor < 256) :
    parseVersion (latin1 greeting) = some ⟨UInt8.ofNat major, UInt8.ofNat minor⟩ := by
  obtain ⟨a, b, last, hg, hla, hlb, ha, hb⟩ := h
  have hsa := splitAtChecked_append (fun c hc => utf8Size_digit (ha.2.1 c hc)) ('.' :: (b ++ [last]))
  have hsb := splitAtChecked_append (fun c hc => utf8Size_digit (hb.2.1 c hc)) [last]
  rw [hla] at hsa
  rw [hlb] at hsb
  have hrfb : stripPrefix "RFB ".toList (latin1 greeting) = some (a ++ '.' :: (b ++ [last])) :=
    stripPrefix_eq_some.2 (by rw [hg]; simp only [List.append_assoc, List.cons_append])
  have hdot : stripPrefix ['.'] ('.' :: (b ++ [last])) = some (b ++ [last]) := stripPrefix_eq_some.2 rfl
  simp only [parseVersion, hrfb, hsa, hdot, hsb, parseU8_digits ha hmajor, parseU8_digits hb hminor, Option.bind_eq_bind,
    Option.bind_some, Option.pure_def]

/-! ## What is agreed -/

theorem atLeast_iff (v w : Version) : v.atLeast w = true ↔ VersionLe w.pair v.pair := by
  unfold Version.atLeast VersionLe Version.pair
  simp only [Bool.or_eq_true, Bool.and_eq_true, decide_eq_true_eq, beq_iff_eq, gt_iff_lt, ge_iff_le, UInt8.lt_iff_toNat_lt,
    UInt8.le_iff_toNat_le, ← UInt8.toNat_inj]
  rw [eq_comm (a := v.major.toNat)]

theorem agreedWith_highest (server : Version) : HighestKnown server.pair (agreedWith server) := by
  have h8 := atLeast_iff server .v3_8
  have h7 := atLeast_iff server .v3_7
  unfold agreedWith
  split
  · rename_i hs
    refine ⟨by decide, .inl (h8.1 hs), fun v hv _ => ?_⟩
    simp only [known, List.mem_cons, List.not_mem_nil, or_false] at hv
    rcases hv with rfl | rfl | rfl <;> decide
  · rename_i hs8
    split
    · rename_i hs
      refine ⟨by decide, .inl (h7.1 hs), fun v hv hle => ?_⟩
      simp only [known, List.mem_cons, List.not_mem_nil, or_false] at hv
      rcases hv with rfl | rfl | rfl
      · decide
      · decide
      · exact absurd (h8.2 hle) hs8
    · rename_i hs7
      refine ⟨by decide, .inr rfl, fun v hv hle => ?_⟩
      simp only [known, List.mem_cons, List.not_mem_nil, or_false] at hv
      rcases hv with rfl | rfl | rfl
      · decide
      · exact absurd (h7.2 hle) hs7
      · exact absurd (h8.2 hle) hs8

namespace Handshake

open Comp

theorem handshakeVersion_eq {wire : Wire} {greeting rest : List UInt8} (h : wire.input = greeting ++ rest)
    (hlen : greeting.length = 12) :
    handshakeVersion wire =
      match parseVersion (latin1 greeting) with
      | none => (.error (.error (notServer (latin1 greeting))), { wire with input := rest })
      | some server => (.ok (agreedWith server),
          { wire with input := rest, log := wire.log ++ [.wrote (agreedWith server).text] }) := by
  have hread : read (bytes 12) wire = (.ok greeting, { wire with input := rest }) :=
    read_eq_ok.2 ⟨rest, bytes_eq_ok.2 ⟨h, hlen⟩, rfl⟩
  unfold handshakeVersion
  rw [bind_ok hread]
  cases parseVersion (latin1 greeting) with
  | none => rfl
  | some server => rfl

theorem handshakeVersion_short {wire : Wire} (h : wire.input.length < 12) : handshakeVersion wire = (.error eof, wire) := by
  have hread : read (bytes 12) wire = (.error eof, wire) := by
    unfold read bytes Parser.takeN
    rw [if_neg (by omega)]
  exact bind_error hread

/-- Every version of two numbers below 256 is answered with the highest known one not above it, and
3.3 where there is none. What is not of the form, and what ends early, is an error with nothing written. -/
theorem version_agreed (wire : Wire) :
    (∀ greeting rest, wire.input = greeting ++ rest → greeting.length = 12 →
      (∀ major minor, Announces greeting major minor → major < 256 → minor < 256 →
        ∃ agreed, HighestKnown (major, minor) agreed ∧
          handshakeVersion wire = (.ok agreed, { wire with input := rest, log := wire.log ++ [.wrote agreed.text] })) ∧
      (¬Loose greeting → ∃ e, handshakeVersion wire = (.error (.error e), { wire with input := rest }))) ∧
    (wire.input.length < 12 → handshakeVersion wire = (.error eof, wire)) := by
  refine ⟨fun greeting rest h hlen => ⟨fun major minor hann hmajor hminor => ?_, fun hloose => ?_⟩,
    handshakeVersion_short⟩
  · have hhighest := agreedWith_highest ⟨UInt8.ofNat major, UInt8.ofNat minor⟩
    rw [Version.pair, UInt8.toNat_ofNat_of_lt' hmajor, UInt8.toNat_ofNat_of_lt' hminor] at hhighest
    refine ⟨_, hhighest, ?_⟩
    rw [handshakeVersion_eq h hlen, parseVersion_announced hann hmajor hminor]
  · rw [handshakeVersion_eq h hlen]
    cases hparse : parseVersion (latin1 greeting) with
    | none => exact ⟨_, rfl⟩
    | some v => exact absurd (loose_of_parseVersion hlen hparse) hloose

theorem version_agreed_four :
    ∃ agreed, HighestKnown (4, 1) agreed ∧
      handshakeVersion ⟨toLatin1 "RFB 004.001\n".toList ++ [1], [], none⟩ =
        (.ok agreed, ⟨[1], [.wrote agreed.text], none⟩) := by
  have hann : Announces (toLatin1 "RFB 004.001\n".toList) 4 1 :=
    ⟨"004".toList, "001".toList, '\n', by decide, rfl, rfl, digits_of_all (by decide) (by decide) (by decide),
      digits_of_all (by decide) (by decide) (by decide)⟩
  exact ((version_agreed ⟨toLatin1 "RFB 004.001\n".toList ++ [1], [], none⟩).1 _ _ rfl rfl).1
    4 1 hann (by decide) (by decide)

/-- The greeting of 3.2. -/
def greeting32 : List UInt8 := toLatin1 "RFB 003.002\n".toList

/-- A server below 3.3 is answered 3.3. -/
theorem version_below :
    Announces greeting32 3 2 ∧ VersionLe (3, 2) Version.v3_3.pair ∧ Version.v3_3.pair ≠ (3, 2) ∧
      handshakeVersion ⟨greeting32, [], none⟩ =
        (.ok .v3_3, ⟨[], [.wrote (toLatin1 "RFB 003.003\n".toList)], none⟩) := by
  refine ⟨⟨"003".toList, "002".toList, '\n', by decide, rfl, rfl, ?_, ?_⟩, .inr ⟨rfl, by decide⟩, by decide,
    by rfl⟩
  · exact digits_of_all (by decide) (by decide) (by decide)
  · exact digits_of_all (by decide) (by decide) (by decide)

end Handshake

end Vento.Rfb
