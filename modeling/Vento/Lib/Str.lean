import Mathlib.Algebra.Ring.Nat
import Mathlib.Data.List.Basic
import Mathlib.Data.List.DropRight
/-!
# Strings, as their characters

A string is the list of its characters, and the operations on it are those of a standard library
whose strings are UTF-8: `bytes` and `ofBytes?` between the two, trimming, splitting at the first
or the last occurrence, and numbers read from decimal digits.

Case is what tables say, so they are a parameter: `Unicode` holds them and `Unicode.Documented`
what lower-casing rests on. A capital sigma alone depends on the letters around it.
-/

namespace Vento.Lib

/-- A string, by its characters. -/
abbrev Str := List Char

namespace Str

/-- What is so of the characters below a number is decided number by number. -/
theorem forall_toNat_lt {b : Nat} {P : Char → Prop} (h : ∀ n, n < b → P (Char.ofNat n)) (c : Char) (hc : c.toNat < b) : P c :=
  Char.ofNat_toNat c ▸ h c.toNat hc

/-! ## Bytes -/

def bytes (s : Str) : List UInt8 := s.flatMap String.utf8EncodeChar

/-- The string whose bytes these are, if they are some string's. -/
def ofBytes? (bs : List UInt8) : Option Str := (String.fromUTF8? ⟨bs.toArray⟩).map String.toList

@[simp] theorem bytes_nil : bytes [] = [] := rfl

theorem bytes_cons (c : Char) (s : Str) : bytes (c :: s) = String.utf8EncodeChar c ++ bytes s := rfl

theorem bytes_append (s t : Str) : bytes (s ++ t) = bytes s ++ bytes t := List.flatMap_append

theorem toUTF8_ofList (s : Str) : (String.ofList s).toUTF8.data.toList = bytes s := by
  show (String.ofList s).toByteArray.data.toList = _
  rw [String.toByteArray_ofList, List.utf8Encode, List.data_toByteArray]
  rfl

theorem ofBytes?_eq_some {bs : List UInt8} {s : Str} : ofBytes? bs = some s ↔ bs = bytes s := by
  unfold ofBytes? String.fromUTF8?
  constructor
  · intro h
    split at h
    · simp only [Option.map_some, Option.some.injEq] at h
      rw [← toUTF8_ofList, ← h, String.ofList_toList]
      rfl
    · cases h
  · rintro rfl
    have hbytes : (⟨(bytes s).toArray⟩ : ByteArray) = (String.ofList s).toByteArray := by
      rw [← toUTF8_ofList]
      rfl
    rw [dif_pos (hbytes ▸ (String.ofList s).isValidUTF8)]
    rw [show String.fromUTF8 _ _ = String.ofList s from String.toByteArray_inj.1 hbytes]
    exact congrArg some String.toList_ofList

theorem ofBytes?_bytes (s : Str) : ofBytes? (bytes s) = some s := ofBytes?_eq_some.2 rfl

/-- A byte below `0x80` is a character of its own. -/
theorem toNat_of_mem_encode {c : Char} {b : UInt8} (h : b ∈ String.utf8EncodeChar c) (hb : b < 0x80) :
    c.toNat = b.toNat := by
  have hb' : b.toNat < 128 := hb
  have hhigh : ∀ n, 128 ≤ n → n < 256 → b ≠ UInt8.ofNat n := by
    rintro n h0 h1 rfl
    rw [UInt8.toNat_ofNat', Nat.mod_eq_of_lt h1] at hb'
    omega
  unfold String.utf8EncodeChar at h
  simp only at h
  split at h
  · next hle =>
    rw [List.mem_singleton.1 h, UInt8.toNat_ofNat', Nat.mod_eq_of_lt (by omega)]
    rfl
  · split at h
    · simp only [List.mem_cons, List.not_mem_nil, or_false] at h
      rcases h with h | h
      · exact absurd h (hhigh _ (by omega) (by omega))
      · exact absurd h (hhigh _ (by omega) (by omega))
    · split at h
      · simp only [List.mem_cons, List.not_mem_nil, or_false] at h
        rcases h with h | h | h
        · exact absurd h (hhigh _ (by omega) (by omega))
        · exact absurd h (hhigh _ (by omega) (by omega))
        · exact absurd h (hhigh _ (by omega) (by omega))
      · simp only [List.mem_cons, List.not_mem_nil, or_false] at h
        rcases h with h | h | h | h
        · exact absurd h (hhigh _ (by omega) (by omega))
        · exact absurd h (hhigh _ (by omega) (by omega))
        · exact absurd h (hhigh _ (by omega) (by omega))
        · exact absurd h (hhigh _ (by omega) (by omega))

theorem encode_of_ascii {c : Char} (h : c.toNat < 128) : String.utf8EncodeChar c = [UInt8.ofNat c.toNat] := by
  unfold String.utf8EncodeChar
  simp only
  rw [if_pos (show c.val.toNat ≤ 127 by exact Nat.le_of_lt_succ h)]
  rfl

theorem mem_of_mem_bytes {s : Str} {b : UInt8} (h : b ∈ bytes s) (hb : b < 0x80) : ∃ c ∈ s, c.toNat = b.toNat := by
  obtain ⟨c, hc, hmem⟩ := List.mem_flatMap.1 h
  exact ⟨c, hc, toNat_of_mem_encode hmem hb⟩

theorem bytes_eq_nil {s : Str} : bytes s = [] ↔ s = [] := by
  constructor
  · intro h
    exact Option.some.inj ((ofBytes?_bytes s).symm.trans ((congrArg ofBytes? h).trans (ofBytes?_bytes [])))
  · rintro rfl
    rfl

/-! ## Trimming and splitting -/

/-- `trim_matches`. -/
def trimMatches (p : Char → Bool) (s : Str) : Str := (s.dropWhile p).rdropWhile p

/-- `char::is_whitespace`: the property White_Space. -/
def isWhitespace (c : Char) : Bool :=
  let n := c.toNat
  (0x09 ≤ n && n ≤ 0x0d) || n == 0x20 || n == 0x85 || n == 0xa0 || n == 0x1680 || (0x2000 ≤ n && n ≤ 0x200a) ||
    n == 0x2028 || n == 0x2029 || n == 0x202f || n == 0x205f || n == 0x3000

/-- `trim`. -/
def trim (s : Str) : Str := trimMatches isWhitespace s

def isAsciiWhitespace (c : Char) : Bool := c == '\t' || c == '\n' || c == '\x0c' || c == '\r' || c == ' '

/-- `trim_ascii`. -/
def trimAscii (s : Str) : Str := trimMatches isAsciiWhitespace s

/-- `split_ascii_whitespace`. -/
def splitAsciiWhitespace (s : Str) : List Str := (s.splitOnP isAsciiWhitespace).filter (· ≠ [])

/-- `split_once`: what is before the first occurrence of `pat`, which is not empty, and after it. -/
def splitOnce (pat : Str) : Str → Option (Str × Str)
  | [] => none
  | c :: s =>
    if pat.isPrefixOf (c :: s) then some ([], (c :: s).drop pat.length)
    else (splitOnce pat s).map fun p => (c :: p.1, p.2)

/-- `rsplit_once`: what is before the last occurrence of `d`, and after it. -/
def rsplitOnce (d : Char) : Str → Option (Str × Str)
  | [] => none
  | c :: s =>
    match rsplitOnce d s with
    | some p => some (c :: p.1, p.2)
    | none => if c = d then some ([], s) else none

def isAsciiHexdigit (c : Char) : Bool := ('0' ≤ c && c ≤ '9') || ('a' ≤ c && c ≤ 'f') || ('A' ≤ c && c ≤ 'F')

/-- `parse::<u32>`: decimal digits after a sign, if there is one, and below `2 ^ 32`. -/
def parseU32 (s : Str) : Option Nat :=
  let digits := if s.head? = some '+' then s.tail else s
  if digits = [] ∨ digits.any (fun c => !c.isDigit) then none
  else
    let n := digits.foldl (fun n c => 10 * n + (c.toNat - '0'.toNat)) 0
    if n < 2 ^ 32 then some n else none

/-! ## What is split -/

theorem splitOnce_sound {pat s a b : Str} (h : splitOnce pat s = some (a, b)) : s = a ++ (pat ++ b) := by
  induction s generalizing a with
  | nil => cases h
  | cons c s ih =>
    rw [splitOnce] at h
    split at h
    · next hpre =>
      cases h
      obtain ⟨t, ht⟩ := List.isPrefixOf_iff_prefix.1 hpre
      rw [← ht, List.drop_left, List.nil_append]
    · obtain ⟨p, hp, heq⟩ := Option.map_eq_some_iff.1 h
      cases heq
      rw [ih hp, List.cons_append]

theorem splitOnce_append {x : Char} (pat : Str) {a : Str} (h : x ∉ a) (b : Str) :
    splitOnce (x :: pat) (a ++ (x :: pat ++ b)) = some (a, b) := by
  induction a with
  | nil =>
    rw [List.nil_append, List.cons_append, splitOnce, ← List.cons_append,
      if_pos (List.isPrefixOf_iff_prefix.2 (List.prefix_append _ _)), List.drop_left]
  | cons c a ih =>
    rw [List.mem_cons, not_or] at h
    have hpre : (x :: pat).isPrefixOf (c :: (a ++ (x :: pat ++ b))) = false := by simp [List.isPrefixOf, h.1]
    rw [List.cons_append, splitOnce, hpre, if_neg Bool.false_ne_true, ih h.2]
    rfl

theorem splitOnce_singleton {d : Char} {a b s : Str} : splitOnce [d] s = some (a, b) ↔ s = a ++ d :: b ∧ d ∉ a := by
  constructor
  · intro h
    refine ⟨splitOnce_sound h, ?_⟩
    induction s generalizing a with
    | nil => cases h
    | cons c s ih =>
      rw [splitOnce] at h
      split at h
      · cases h
        exact List.not_mem_nil
      · next hpre =>
        obtain ⟨p, hp, heq⟩ := Option.map_eq_some_iff.1 h
        cases heq
        rw [List.mem_cons, not_or]
        exact ⟨fun hc => hpre (by simp [List.isPrefixOf, hc]), ih hp⟩
  · rintro ⟨rfl, h⟩
    exact splitOnce_append [] h b

theorem splitOnce_eq_none {d : Char} {s : Str} : splitOnce [d] s = none ↔ d ∉ s := by
  induction s with
  | nil => simp [splitOnce]
  | cons c s ih =>
    rw [splitOnce]
    by_cases hc : d = c
    · simp [List.isPrefixOf, hc]
    · simp [List.isPrefixOf, hc, ih]

theorem rsplitOnce_eq_none {d : Char} {s : Str} : rsplitOnce d s = none ↔ d ∉ s := by
  induction s with
  | nil => simp [rsplitOnce]
  | cons c s ih =>
    rw [rsplitOnce]
    split
    · next p hp =>
      have hmem : d ∈ s := by
        by_contra hd
        cases hp.symm.trans (ih.2 hd)
      simp [hmem]
    · next hnone =>
      have hd := ih.1 hnone
      by_cases hc : c = d
      · simp [hc]
      · simp [hc, hd, Ne.symm hc]

theorem rsplitOnce_eq_some {d : Char} {a b s : Str} : rsplitOnce d s = some (a, b) ↔ s = a ++ d :: b ∧ d ∉ b := by
  induction s generalizing a with
  | nil =>
    constructor
    · exact nofun
    · rintro ⟨h, -⟩
      exact absurd h.symm (List.append_ne_nil_of_right_ne_nil a (List.cons_ne_nil d b))
  | cons c s ih =>
    rw [rsplitOnce]
    constructor
    · intro h
      split at h
      · next p hp =>
        cases h
        obtain ⟨rfl, hd⟩ := ih.1 hp
        exact ⟨rfl, hd⟩
      · next hnone =>
        split at h
        · next hc =>
          cases h
          exact ⟨by rw [hc]; rfl, rsplitOnce_eq_none.1 hnone⟩
        · cases h
    · rintro ⟨h, hd⟩
      cases a with
      | nil =>
        obtain ⟨rfl, rfl⟩ := List.cons.inj h
        rw [rsplitOnce_eq_none.2 hd]
        simp
      | cons e a =>
        obtain ⟨rfl, rfl⟩ := List.cons.inj h
        rw [ih.2 ⟨rfl, hd⟩]

/-! ## What is trimmed -/

/-- Neither end of `s` is trimmed. -/
structure Bare (p : Char → Bool) (s : Str) : Prop where
  head : ∀ c ∈ s.head?, p c = false
  last : ∀ c ∈ s.getLast?, p c = false

theorem dropWhile_eq_nil {p : Char → Bool} {w : Str} (hw : ∀ c ∈ w, p c = true) : w.dropWhile p = [] := by
  rw [← List.append_nil w, List.dropWhile_append_of_pos hw, List.dropWhile_nil]

theorem rdropWhile_append {p : Char → Bool} (s : Str) {w : Str} (hw : ∀ c ∈ w, p c = true) :
    (s ++ w).rdropWhile p = s.rdropWhile p := by
  rw [List.rdropWhile, List.reverse_append, List.dropWhile_append_of_pos (by simpa using hw), List.rdropWhile]

theorem Bare.dropWhile_append {p : Char → Bool} {s : Str} (h : Bare p s) (hne : s ≠ []) (t : Str) :
    (s ++ t).dropWhile p = s ++ t := by
  cases s with
  | nil => exact absurd rfl hne
  | cons c s => simp [h.head c rfl]

theorem Bare.rdropWhile_append {p : Char → Bool} {s : Str} (h : Bare p s) (hne : s ≠ []) (t : Str) :
    (t ++ s).rdropWhile p = t ++ s := by
  rw [List.rdropWhile_eq_self_iff]
  intro hne'
  rw [List.getLast_append_of_right_ne_nil _ _ hne]
  simp [h.last _ (List.getLast?_eq_some_getLast hne)]

/-- Only what is around a bare text is trimmed. -/
theorem trimMatches_around {p : Char → Bool} {s : Str} (h : Bare p s) (hne : s ≠ []) (w w' : Str) :
    trimMatches p (w ++ (s ++ w')) = w.dropWhile p ++ (s ++ w'.rdropWhile p) := by
  have hleft : (w ++ (s ++ w')).dropWhile p = w.dropWhile p ++ (s ++ w') := by
    rw [List.dropWhile_append]
    split
    · next hw => rw [h.dropWhile_append hne, List.isEmpty_iff.1 hw, List.nil_append]
    · rfl
  have hright : ∀ l : Str, (l ++ w').rdropWhile p = if w'.rdropWhile p = [] then l.rdropWhile p else l ++ w'.rdropWhile p := by
    intro l
    rw [List.rdropWhile, List.reverse_append, List.dropWhile_append]
    simp only [List.rdropWhile, List.reverse_eq_nil_iff, List.isEmpty_iff]
    split
    · rfl
    · simp
  rw [trimMatches, hleft, ← List.append_assoc, hright]
  split
  · next hw => rw [h.rdropWhile_append hne, hw, List.append_nil]
  · rw [List.append_assoc]

theorem trimMatches_eq {p : Char → Bool} {w s w' : Str} (h : Bare p s) (hw : ∀ c ∈ w, p c = true)
    (hw' : ∀ c ∈ w', p c = true) : trimMatches p (w ++ (s ++ w')) = s := by
  by_cases hne : s = []
  · subst hne
    rw [trimMatches, List.nil_append, dropWhile_eq_nil (by simpa [or_imp, forall_and] using ⟨hw, hw'⟩)]
    rfl
  · have hw₁ : w'.rdropWhile p = [] := List.rdropWhile_eq_nil_iff.2 hw'
    rw [trimMatches_around h hne, dropWhile_eq_nil hw, hw₁, List.nil_append, List.append_nil]

theorem Bare.trimMatches_eq_self {p : Char → Bool} {s : Str} (h : Bare p s) : trimMatches p s = s := by
  have heq : trimMatches p ([] ++ (s ++ [])) = s := trimMatches_eq h (by simp) (by simp)
  rwa [List.nil_append, List.append_nil] at heq

theorem bare_trimMatches (p : Char → Bool) (s : Str) : Bare p (trimMatches p s) where
  head c hc := by
    obtain ⟨t, ht⟩ := List.rdropWhile_prefix p (s.dropWhile p)
    have hhead : (s.dropWhile p).head? = some c := by
      rw [← ht, List.head?_append, show ((s.dropWhile p).rdropWhile p).head? = some c from hc]
      rfl
    have hnot := List.head?_dropWhile_not p s
    rw [hhead] at hnot
    exact hnot
  last c hc := by
    obtain ⟨hne, rfl⟩ := List.mem_getLast?_eq_getLast hc
    rw [Bool.eq_false_iff]
    exact List.rdropWhile_last_not p (s.dropWhile p) hne

/-- A text is what is left of it when it is trimmed, with what is trimmed around it. -/
theorem exists_trimMatches (p : Char → Bool) (s : Str) :
    ∃ w w', s = w ++ (trimMatches p s ++ w') ∧ (∀ c ∈ w, p c = true) ∧ ∀ c ∈ w', p c = true := by
  refine ⟨s.takeWhile p, (s.dropWhile p).rtakeWhile p, ?_, fun c hc => List.mem_takeWhile_imp hc,
    fun c hc => List.mem_rtakeWhile_imp hc⟩
  rw [trimMatches, List.rdropWhile_append_rtakeWhile, List.takeWhile_append_dropWhile]

theorem trimMatches_sublist (p : Char → Bool) (s : Str) : (trimMatches p s).Sublist s :=
  (List.rdropWhile_prefix p _).sublist.trans (List.dropWhile_sublist p)

/-- What is not trimmed is there as often as before. -/
theorem count_trimMatches {p : Char → Bool} {x : Char} (h : p x = false) (s : Str) :
    (trimMatches p s).count x = s.count x := by
  obtain ⟨w, w', hs, hw, hw'⟩ := exists_trimMatches p s
  have hnot : ∀ w : Str, (∀ c ∈ w, p c = true) → w.count x = 0 := by
    intro w hw
    rw [List.count_eq_zero]
    intro hmem
    exact absurd (hw x hmem) (by simp [h])
  conv_rhs => rw [hs, List.count_append, List.count_append, hnot w hw, hnot w' hw']
  rw [Nat.zero_add, Nat.add_zero]

end Str

/-! ## Case -/

/-- What the tables say of a character: what it is in lower case, and the properties Cased and
Case_Ignorable. -/
structure Unicode where
  lower : Char → Str
  cased : Char → Bool
  caseIgnorable : Char → Bool

namespace Unicode

def caseIgnorableThenCased (u : Unicode) (s : Str) : Bool :=
  match s.dropWhile u.caseIgnorable with
  | c :: _ => u.cased c
  | [] => false

/-- `s` in lower case, where it comes after `before`, read backwards: a capital sigma is the final one at
the end of a word. -/
def lowerFrom (u : Unicode) : Str → Str → Str
  | _, [] => []
  | before, c :: s =>
    (if c = 'Σ' then [if u.caseIgnorableThenCased before && !u.caseIgnorableThenCased s then 'ς' else 'σ'] else u.lower c) ++
      u.lowerFrom (c :: before) s

/-- `to_lowercase`. -/
def toLowercase (u : Unicode) (s : Str) : Str := u.lowerFrom [] s

/-- What the tables say of ASCII. -/
def ascii : Unicode :=
  ⟨fun c => [c.toLower], Char.isAlpha, fun c => [0x27, 0x2e, 0x3a, 0x5e, 0x60].contains c.toNat⟩

end Unicode

end Vento.Lib
