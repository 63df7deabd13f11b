import Vento.Api.Trust
import Vento.Lib.Bytes
/-!
# The known hosts, as a file

`linux/src/known_hosts.rs`: a file of pins, an entry a line, with what is not an entry kept as it
was. A file is its bytes, and one that is not there has none; it is read afresh for every
question and replaced whole.

`pins_write`: what is written reads back as the entries it was written from, but for one with an
empty key or value, which no line can hold.
-/

namespace Vento.Linux.KnownHosts

open Vento.Lib Vento.Lib.Str Vento.Api

/-- One line of a store file. -/
inductive Line where
  | entry (key value : Str)
  /-- A comment, a blank line, or a line that does not parse. -/
  | other (raw : List UInt8)
deriving DecidableEq, Repr

/-- A store file's lines, in order. -/
abbrev Table := List Line

/-- Bytes of the backslash, the escape's `x`, the space and the line's end. -/
def backslash : UInt8 := 0x5c
def letterX : UInt8 := 0x78
def space : UInt8 := 0x20
def newline : UInt8 := 0x0a

/-- The value of a hex digit. -/
def hexValue (b : UInt8) : Option UInt8 :=
  if 0x30 ≤ b ∧ b ≤ 0x39 then some (b - 0x30)
  else if 0x61 ≤ b ∧ b ≤ 0x66 then some (b - 0x61 + 10)
  else if 0x41 ≤ b ∧ b ≤ 0x46 then some (b - 0x41 + 10)
  else none

/-- The bytes of `s` without its escapes, if they are all whole. -/
def unescapeBytes : List UInt8 → Option (List UInt8)
  | [] => some []
  | b :: rest =>
    if b = backslash then
      match rest with
      | x :: hi :: lo :: rest =>
        if x = letterX then
          match hexValue hi, hexValue lo, unescapeBytes rest with
          | some hi, some lo, some out => some ((16 * hi + lo) :: out)
          | _, _, _ => none
        else none
      | _ => none
    else (unescapeBytes rest).map (b :: ·)

def unescape (s : Str) : Option Str := (unescapeBytes (bytes s)).bind ofBytes?

/-- A digit of `{:02x}`. -/
def hexDigit (n : Nat) : Char := if n < 10 then Char.ofNat (0x30 + n) else Char.ofNat (0x57 + n)

/-- Whether the character would split a token or, as the first one, start a comment. -/
def isSpecial (first : Bool) (c : Char) : Bool :=
  c < ' ' || c == '\x7f' || c == ' ' || c == '\\' || (first && c == '#')

def escapeChar (first : Bool) (c : Char) : Str :=
  if isSpecial first c then ['\\', 'x', hexDigit (c.toNat / 16), hexDigit (c.toNat % 16)] else [c]

def escape : Str → Str
  | [] => []
  | c :: s => escapeChar true c ++ s.flatMap (escapeChar false)

def parseLine (raw : List UInt8) : Line :=
  match ofBytes? raw with
  | none => .other raw
  | some text =>
    let text := trimAscii text
    if text = [] ∨ text.head? = some '#' then .other raw
    else
      match splitAsciiWhitespace text with
      | [key, value] =>
        match unescape key, unescape value with
        | some key, some value => .entry key value
        | _, _ => .other raw
      | _ => .other raw

namespace Table

/-- Never fails: what is not an entry is kept as a line of something else. The newline that ends the last
line is not a line after it. -/
def parse (bytes : List UInt8) : Table :=
  let lines := (bytes.splitOnP (· == newline)).map parseLine
  if bytes = [] ∨ bytes.getLast? = some newline then lines.dropLast else lines

/-- Every entry, in file order. -/
def entries (t : Table) : List (Str × Str) :=
  t.filterMap fun
    | .entry key value => some (key, value)
    | .other _ => none

/-- What `key` maps to: the first entry for it. -/
def get (t : Table) (key : Str) : Option Str := (t.entries.find? (fun p => p.1 = key)).map Prod.snd

/-- The lines `set` retains, and whether one of them was for `key`. -/
def retain (key value : Str) : Bool → Table → Table × Bool
  | found, [] => ([], found)
  | found, .entry k v :: t =>
    if k = key then
      if found then retain key value true t
      else (.entry k value :: (retain key value true t).1, true)
    else (.entry k v :: (retain key value found t).1, (retain key value found t).2)
  | found, .other raw :: t => (.other raw :: (retain key value found t).1, (retain key value found t).2)

/-- `key` maps to `value` from now on: the first entry for it changed in place, any later ones dropped, and
a new one at the end if there was none. -/
def set (t : Table) (key value : Str) : Table :=
  let (t, found) := retain key value false t
  if found then t else t ++ [.entry key value]

/-- The lines left where `forgets` says yes to an entry's key, and the entries taken out. -/
def removeWhere (t : Table) (forgets : Str → Bool) : Table × List (Str × Str) :=
  (t.filter fun
    | .entry key _ => !forgets key
    | .other _ => true,
   t.entries.filter fun p => forgets p.1)

def lineBytes : Line → List UInt8
  | .entry key value => bytes (escape key) ++ space :: bytes (escape value)
  | .other raw => raw

def toBytes (t : Table) : List UInt8 := t.flatMap fun line => lineBytes line ++ [newline]

end Table

/-! ## The file -/

/-- What is in the file. -/
abbrev File := List UInt8

namespace File

/-- Read first, so that what another process wrote in the meantime is kept. -/
def set (file : File) (key value : Str) : File :=
  let table := Table.parse file
  if table.get key = some value then file else (table.set key value).toBytes

/-- Written only if an entry is taken out. -/
def removeWhere (file : File) (forgets : Str → Bool) : File × List (Str × Str) :=
  let (table, removed) := (Table.parse file).removeWhere forgets
  (if removed = [] then file else table.toBytes, removed)

def pins (file : File) : List (Str × Str) := (Table.parse file).entries

end File

/-- The pin store over the file. -/
def store : Trust.Store File := ⟨File.pins, fun key fingerprint file => file.set key fingerprint⟩

/-- What `forget` did, a line an item. -/
structure Forgotten where
  removed : List Str := []
  kept : List Str := []
deriving DecidableEq, Repr

/-- `forget` in one of the store files, at `path`. -/
def forgetIn (u : Unicode) (path address : Str) (file : File) : File × Forgotten :=
  let name := fun key : Str => path ++ ": ".toList ++ key
  let (file, removed) := file.removeWhere fun key => Trust.sameServer u key address
  let kept :=
    match Trust.hostOf u address with
    | some host => file.pins.filter fun p : Str × Str => Trust.hostOf u p.1 = some host
    | none => []
  (file, ⟨removed.map fun p : Str × Str => name p.1, kept.map fun p : Str × Str => name p.1⟩)

/-- `vento --forget`, in every store file; each is at its path. -/
def forget (u : Unicode) (address : Str) (files : List (Str × File)) : List (Str × File) × Forgotten :=
  let done := files.map fun f => (f.1, forgetIn u f.1 address f.2)
  (done.map fun f => (f.1, f.2.1), ⟨done.flatMap fun f => f.2.2.removed, done.flatMap fun f => f.2.2.kept⟩)

/-! ## What is escaped -/

theorem hexValue_hexDigit : ∀ n, n < 16 → hexValue (UInt8.ofNat (hexDigit n).toNat) = some (UInt8.ofNat n) ∧ (hexDigit n).toNat < 128 := by
  decide

theorem toNat_of_isSpecial {first : Bool} {c : Char} (h : isSpecial first c = true) : c.toNat < 128 := by
  unfold isSpecial at h
  simp only [Bool.or_eq_true, Bool.and_eq_true, beq_iff_eq, decide_eq_true_eq] at h
  rcases h with (((h | rfl) | rfl) | rfl) | ⟨-, rfl⟩
  · exact Nat.lt_trans (show c.toNat < 32 from h) (by decide)
  · decide
  · decide
  · decide
  · decide

theorem unescapeBytes_cons {b : UInt8} (h : b ≠ backslash) (rest : List UInt8) :
    unescapeBytes (b :: rest) = (unescapeBytes rest).map (b :: ·) := by
  conv_lhs => unfold unescapeBytes
  rw [if_neg h]

theorem unescapeBytes_plain {l : List UInt8} (h : backslash ∉ l) (rest : List UInt8) :
    unescapeBytes (l ++ rest) = (unescapeBytes rest).map (l ++ ·) := by
  induction l with
  | nil => simp
  | cons b l ih =>
    rw [List.mem_cons, not_or] at h
    rw [List.cons_append, unescapeBytes_cons (Ne.symm h.1), ih h.2, Option.map_map]
    rfl

/-- A character reads back from its escape. -/
theorem unescapeBytes_escapeChar (first : Bool) (c : Char) (rest : List UInt8) :
    unescapeBytes (bytes (escapeChar first c) ++ rest) = (unescapeBytes rest).map (String.utf8EncodeChar c ++ ·) := by
  unfold escapeChar
  split
  · next h =>
    have hlt := toNat_of_isSpecial h
    obtain ⟨hhi, hhi'⟩ := hexValue_hexDigit (c.toNat / 16) (by omega)
    obtain ⟨hlo, hlo'⟩ := hexValue_hexDigit (c.toNat % 16) (by omega)
    have hbytes : bytes ['\\', 'x', hexDigit (c.toNat / 16), hexDigit (c.toNat % 16)] =
        [backslash, letterX, UInt8.ofNat (hexDigit (c.toNat / 16)).toNat, UInt8.ofNat (hexDigit (c.toNat % 16)).toNat] := by
      simp only [bytes_cons, bytes_nil, encode_of_ascii hhi', encode_of_ascii hlo']
      rfl
    have hbyte : 16 * UInt8.ofNat (c.toNat / 16) + UInt8.ofNat (c.toNat % 16) = UInt8.ofNat c.toNat := by
      apply UInt8.toNat_inj.1
      simp only [UInt8.toNat_add, UInt8.toNat_mul, UInt8.toNat_ofNat', UInt8.toNat_ofNat]
      omega
    rw [hbytes, encode_of_ascii hlt]
    simp only [List.cons_append, List.nil_append, unescapeBytes, if_pos, hhi, hlo]
    cases unescapeBytes rest with
    | none => rfl
    | some out => simp [hbyte]
  · next h =>
    rw [bytes_cons, bytes_nil, List.append_nil]
    apply unescapeBytes_plain
    rintro hmem
    have hc : c = '\\' := Char.toNat_inj.1 (toNat_of_mem_encode hmem (by decide))
    apply h
    rw [hc]
    cases first <;> rfl

theorem unescapeBytes_escaped (first : Bool) (s : Str) :
    unescapeBytes (bytes (s.flatMap (escapeChar first))) = some (bytes s) := by
  induction s with
  | nil => rfl
  | cons c s ih =>
    rw [List.flatMap_cons, bytes_append, unescapeBytes_escapeChar, ih]
    rfl

theorem unescape_escape (s : Str) : unescape (escape s) = some s := by
  have hbytes : unescapeBytes (bytes (escape s)) = some (bytes s) := by
    cases s with
    | nil => rfl
    | cons c s =>
      rw [escape, bytes_append, unescapeBytes_escapeChar, unescapeBytes_escaped]
      rfl
  rw [unescape, hbytes]
  exact ofBytes?_bytes s

/-- Nothing that is special in the middle of a token is left but the escapes' backslashes. -/
theorem not_special_of_mem_escape {s : Str} {d : Char} (h : d ∈ escape s) : isSpecial false d = false ∨ d = '\\' := by
  have hchar : ∀ (first : Bool) (c : Char), d ∈ escapeChar first c → isSpecial false d = false ∨ d = '\\' := by
    intro first c hd
    unfold escapeChar at hd
    split at hd
    · have hdigit : ∀ n, n < 16 → isSpecial false (hexDigit n) = false := by decide
      have hlt := toNat_of_isSpecial ‹_›
      simp only [List.mem_cons, List.not_mem_nil, or_false] at hd
      rcases hd with rfl | rfl | rfl | rfl
      · exact .inr rfl
      · exact .inl rfl
      · exact .inl (hdigit _ (by omega))
      · exact .inl (hdigit _ (by omega))
    · next hspecial =>
      rw [List.mem_singleton.1 hd]
      left
      rw [Bool.eq_false_iff]
      intro hc
      apply hspecial
      unfold isSpecial at hc ⊢
      simp only [Bool.false_and, Bool.or_false] at hc
      rw [hc, Bool.true_or]
  cases s with
  | nil => cases h
  | cons c s =>
    rcases List.mem_append.1 h with h | h
    · exact hchar true c h
    · obtain ⟨c', -, h⟩ := List.mem_flatMap.1 h
      exact hchar false c' h

theorem escape_eq_nil {s : Str} : escape s = [] ↔ s = [] := by
  constructor
  · intro h
    have hs := unescape_escape s
    rw [h] at hs
    exact (Option.some.inj hs).symm
  · rintro rfl
    rfl

theorem head_escape_ne (s : Str) : (escape s).head? ≠ some '#' := by
  cases s with
  | nil => exact nofun
  | cons c s =>
    intro h
    rw [escape, escapeChar] at h
    split at h
    · cases h
    · next hspecial =>
      cases h
      exact hspecial rfl

theorem isAsciiWhitespace_escape {s : Str} {d : Char} (h : d ∈ escape s) : isAsciiWhitespace d = false := by
  rw [Bool.eq_false_iff]
  intro hd
  unfold isAsciiWhitespace at hd
  simp only [Bool.or_eq_true, beq_iff_eq] at hd
  rcases hd with (((rfl | rfl) | rfl) | rfl) | rfl <;> rcases not_special_of_mem_escape h with h | h <;> cases h

theorem newline_not_mem_escape (s : Str) : newline ∉ bytes (escape s) := by
  intro h
  obtain ⟨d, hd, hnat⟩ := mem_of_mem_bytes h (by decide)
  have hline : d = '\n' := Char.toNat_inj.1 hnat
  have hwhite := isAsciiWhitespace_escape hd
  rw [hline] at hwhite
  cases hwhite

/-! ## What is written -/

/-- Without white space in it. -/
def Token (w : Str) : Prop := ∀ d ∈ w, isAsciiWhitespace d = false

theorem token_escape (s : Str) : Token (escape s) := fun _ h => isAsciiWhitespace_escape h

theorem Token.dropWhile {w : Str} (h : Token w) (s : Str) (hw : w ≠ []) :
    (w ++ s).dropWhile isAsciiWhitespace = w ++ s := by
  cases w with
  | nil => exact absurd rfl hw
  | cons c w => simp [h c List.mem_cons_self]

theorem Token.rdropWhile {w : Str} (h : Token w) : w.rdropWhile isAsciiWhitespace = w := by
  rw [List.rdropWhile_eq_self_iff]
  intro hne
  simp [h _ (List.getLast_mem hne)]

theorem Token.trimAscii {w : Str} (h : Token w) : trimAscii w = w := by
  cases w with
  | nil => rfl
  | cons c w =>
    have hleft := h.dropWhile [] (List.cons_ne_nil c w)
    rw [List.append_nil] at hleft
    rw [Str.trimAscii, trimMatches, hleft, h.rdropWhile]

theorem Token.trimAscii_space_cons {w : Str} (h : Token w) : Str.trimAscii (' ' :: w) = w :=
  h.trimAscii

theorem Token.trimAscii_concat_space {w : Str} (h : Token w) : Str.trimAscii (w ++ [' ']) = w := by
  cases w with
  | nil => rfl
  | cons c w =>
    rw [Str.trimAscii, trimMatches, h.dropWhile [' '] (List.cons_ne_nil c w), List.rdropWhile_concat_pos _ _ _ (by rfl),
      h.rdropWhile]

theorem trimAscii_entry {k v : Str} (hk : k ≠ []) (hv : v ≠ []) (hk' : Token k) (hv' : Token v) :
    trimAscii (k ++ ' ' :: v) = k ++ ' ' :: v := by
  rw [trimAscii, trimMatches, hk'.dropWhile _ hk, List.rdropWhile_eq_self_iff]
  intro hne
  rw [List.getLast_append_of_right_ne_nil _ _ (List.cons_ne_nil _ _), List.getLast_cons hv]
  simp [hv' _ (List.getLast_mem hv)]

/-- A text of one token at most is no entry. -/
theorem parseLine_token {raw : List UInt8} {text w : Str} (hraw : ofBytes? raw = some text) (htrim : trimAscii text = w)
    (hw : Token w) : parseLine raw = .other raw := by
  unfold parseLine
  rw [hraw]
  dsimp only
  rw [htrim]
  split
  · rfl
  · have hsplit : splitAsciiWhitespace w = [w].filter (· ≠ []) := by
      rw [splitAsciiWhitespace, List.splitOnP_eq_singleton hw]
    rw [hsplit]
    split
    · next key value heq =>
      have hlen := congrArg List.length heq
      have hle := List.length_filter_le (fun w : Str => decide (w ≠ [])) [w]
      rw [hlen] at hle
      simp at hle
    · rfl

theorem bytes_entry (k v : Str) :
    Table.lineBytes (.entry k v) = bytes (escape k ++ ' ' :: escape v) := by
  rw [Table.lineBytes, bytes_append, bytes_cons]
  rfl

/-- An entry's line reads back as it, if neither half is empty; else as no entry. -/
theorem parseLine_entry (k v : Str) :
    parseLine (Table.lineBytes (.entry k v)) =
      if k ≠ [] ∧ v ≠ [] then .entry k v else .other (Table.lineBytes (.entry k v)) := by
  have hraw : ofBytes? (Table.lineBytes (.entry k v)) = some (escape k ++ ' ' :: escape v) := by
    rw [bytes_entry, ofBytes?_bytes]
  by_cases hk : k = []
  · rw [if_neg fun h => h.1 hk]
    subst hk
    exact parseLine_token hraw (token_escape v).trimAscii_space_cons (token_escape v)
  · by_cases hv : v = []
    · rw [if_neg fun h => h.2 hv]
      subst hv
      exact parseLine_token hraw (token_escape k).trimAscii_concat_space (token_escape k)
    · rw [if_pos ⟨hk, hv⟩]
      have hk' : escape k ≠ [] := fun h => hk (escape_eq_nil.1 h)
      have hv' : escape v ≠ [] := fun h => hv (escape_eq_nil.1 h)
      have hsplit : splitAsciiWhitespace (escape k ++ ' ' :: escape v) = [escape k, escape v] := by
        rw [splitAsciiWhitespace, List.splitOnP_append_cons_of_forall_mem (token_escape k) ' ' (by rfl),
          List.splitOnP_eq_singleton (token_escape v)]
        simp [hk', hv']
      have hhead : (escape k ++ ' ' :: escape v).head? ≠ some '#' := by
        rw [List.head?_append_of_ne_nil _ hk']
        exact head_escape_ne k
      have hentry : ¬(escape k ++ ' ' :: escape v = [] ∨ (escape k ++ ' ' :: escape v).head? = some '#') := by
        rintro (h | h)
        · exact List.append_ne_nil_of_left_ne_nil hk' _ h
        · exact hhead h
      unfold parseLine
      rw [hraw]
      dsimp only
      rw [trimAscii_entry hk' hv' (token_escape k) (token_escape v), if_neg hentry, hsplit]
      simp only [unescape_escape]

theorem unescapeBytes_eq_nil {bs : List UInt8} (h : unescapeBytes bs = some []) : bs = [] := by
  cases bs with
  | nil => rfl
  | cons b rest =>
    by_cases hb : b = backslash
    · unfold unescapeBytes at h
      rw [if_pos hb] at h
      split at h
      · split at h
        · split at h
          · cases h
          · cases h
        · cases h
      · cases h
    · rw [unescapeBytes_cons hb] at h
      obtain ⟨out, -, hout⟩ := Option.map_eq_some_iff.1 h
      cases hout

theorem unescape_ne_nil {w s : Str} (h : unescape w = some s) (hw : w ≠ []) : s ≠ [] := by
  rintro rfl
  obtain ⟨out, hout, hs⟩ := Option.bind_eq_some_iff.1 h
  rw [ofBytes?_eq_some.1 hs] at hout
  exact hw (bytes_eq_nil.1 (unescapeBytes_eq_nil hout))

/-- A line is kept as it was read, or is an entry with something in either half. -/
theorem parseLine_cases (raw : List UInt8) :
    parseLine raw = .other raw ∨ ∃ k v, parseLine raw = .entry k v ∧ k ≠ [] ∧ v ≠ [] := by
  unfold parseLine
  split
  · exact .inl rfl
  · dsimp only
    split
    · exact .inl rfl
    · split
      · next key value hsplit =>
        split
        · next k v hk hv =>
          have hne : ∀ w ∈ [key, value], w ≠ [] := by
            rw [← hsplit]
            intro w hw
            exact of_decide_eq_true (List.mem_filter.1 hw).2
          exact .inr ⟨k, v, rfl, unescape_ne_nil hk (hne key (by simp)), unescape_ne_nil hv (hne value (by simp))⟩
        · exact .inl rfl
      · exact .inl rfl

/-! ## What is read of what was written -/

/-- The parts of a list between the places where it is split have no such place in them. -/
theorem not_mem_of_mem_splitOnP {α : Type} {p : α → Bool} (xs : List α) : ∀ l ∈ xs.splitOnP p, ∀ x ∈ l, p x = false := by
  induction xs with
  | nil => simp [List.splitOnP_nil]
  | cons x xs ih =>
    rw [List.splitOnP_cons_eq_if_modifyHead]
    split
    · simpa using ih
    · next hx =>
      cases hxs : xs.splitOnP p with
      | nil => simp
      | cons l ls =>
        rw [hxs] at ih
        simp only [List.modifyHead_cons, List.forall_mem_cons] at ih ⊢
        exact ⟨⟨by simpa using hx, ih.1⟩, ih.2⟩

/-- The lines of a file as it was read: of what is no entry no line's end, and of an entry neither half empty. -/
def Line.Read : Line → Prop
  | .entry k v => k ≠ [] ∧ v ≠ []
  | .other raw => parseLine raw = .other raw ∧ newline ∉ raw

theorem read_parse (file : List UInt8) : ∀ line ∈ Table.parse file, line.Read := by
  have hall : ∀ line ∈ (file.splitOnP (· == newline)).map parseLine, line.Read := by
    intro line hline
    obtain ⟨raw, hraw, rfl⟩ := List.mem_map.1 hline
    rcases parseLine_cases raw with h | ⟨k, v, h, hne⟩
    · rw [h]
      refine ⟨h, fun hmem => ?_⟩
      exact absurd (not_mem_of_mem_splitOnP file raw hraw newline hmem) (by decide)
    · rw [h]
      exact hne
  unfold Table.parse
  dsimp only
  split
  · exact fun line hline => hall line (List.dropLast_subset _ hline)
  · exact hall

theorem splitOnP_lines {ls : List (List UInt8)} (h : ∀ l ∈ ls, newline ∉ l) :
    (ls.flatMap (· ++ [newline])).splitOnP (· == newline) = ls ++ [[]] := by
  induction ls with
  | nil => rfl
  | cons l ls ih =>
    rw [List.forall_mem_cons] at h
    have hl : ∀ b ∈ l, (b == newline) = false := by
      intro b hb
      rw [beq_eq_false_iff_ne]
      rintro rfl
      exact h.1 hb
    rw [List.flatMap_cons, List.append_assoc, List.singleton_append,
      List.splitOnP_append_cons_of_forall_mem hl newline (by rfl), ih h.2]
    rfl

theorem newline_not_mem_entry (k v : Str) : newline ∉ Table.lineBytes (.entry k v) := by
  intro h
  rcases List.mem_append.1 h with h | h
  · exact newline_not_mem_escape k h
  · rcases List.mem_cons.1 h with h | h
    · cases h
    · exact newline_not_mem_escape v h

/-- What is written is read a line at a time. -/
theorem parse_toBytes {t : Table} (h : ∀ line ∈ t, newline ∉ Table.lineBytes line) :
    Table.parse t.toBytes = t.map fun line => parseLine (Table.lineBytes line) := by
  have hsplit : t.toBytes.splitOnP (· == newline) = t.map Table.lineBytes ++ [[]] := by
    have hlines : ∀ l ∈ t.map Table.lineBytes, newline ∉ l := by simpa using h
    rw [← splitOnP_lines hlines, List.flatMap_map]
    rfl
  have hlast : t.toBytes = [] ∨ t.toBytes.getLast? = some newline := by
    rcases List.eq_nil_or_concat t with rfl | ⟨t, line, rfl⟩
    · exact .inl rfl
    · right
      simp [Table.toBytes]
  unfold Table.parse
  rw [if_pos hlast, hsplit, List.map_append, List.map_singleton, List.dropLast_concat, List.map_map]
  rfl

/-- What a table holds is read back from what is written, but for an entry with an empty half. -/
theorem entries_parse_toBytes {t : Table} (h : ∀ raw, .other raw ∈ t → (Line.other raw).Read) :
    (Table.parse t.toBytes).entries = t.entries.filter fun p => p.1 ≠ [] ∧ p.2 ≠ [] := by
  have hline : ∀ line ∈ t, newline ∉ Table.lineBytes line := by
    intro line hmem
    cases line with
    | entry k v => exact newline_not_mem_entry k v
    | other raw => exact (h raw hmem).2
  rw [parse_toBytes hline]
  clear hline
  induction t with
  | nil => rfl
  | cons line t ih =>
    have ih := ih fun raw hraw => h raw (List.mem_cons_of_mem _ hraw)
    cases line with
    | entry k v =>
      rw [List.map_cons, parseLine_entry]
      split
      · next hne =>
        rw [Table.entries, List.filterMap_cons_some (by rfl), Table.entries, List.filterMap_cons_some (by rfl),
          List.filter_cons_of_pos (by simpa using hne)]
        exact congrArg _ ih
      · next hne =>
        rw [Table.entries, List.filterMap_cons_none (by rfl), Table.entries, List.filterMap_cons_some (by rfl),
          List.filter_cons_of_neg (by simpa using hne)]
        exact ih
    | other raw =>
      rw [List.map_cons, show parseLine (Table.lineBytes (.other raw)) = .other raw from (h raw List.mem_cons_self).1]
      rw [Table.entries, List.filterMap_cons_none (by rfl), Table.entries, List.filterMap_cons_none (by rfl)]
      exact ih

namespace Table

@[simp] theorem entries_nil : entries [] = [] := rfl

@[simp] theorem entries_cons_entry (k v : Str) (t : Table) : entries (.entry k v :: t) = (k, v) :: entries t := rfl

@[simp] theorem entries_cons_other (raw : List UInt8) (t : Table) : entries (.other raw :: t) = entries t := rfl

theorem entries_append (t t' : Table) : entries (t ++ t') = entries t ++ entries t' := List.filterMap_append

/-- The other keys' entries are retained. -/
theorem retain_other {key k : Str} (hk : k ≠ key) (value : Str) (found : Bool) (t : Table) :
    (retain key value found t).1.entries.filter (·.1 = k) = t.entries.filter (·.1 = k) := by
  fun_induction retain key value found t with
  | case1 => rfl
  | case2 v t ih => simpa [Ne.symm hk] using ih
  | case3 found v t _ ih => simpa [Ne.symm hk] using ih
  | case4 found k' v t _ ih => simp [List.filter_cons, ih]
  | case5 found raw t ih => simpa using ih

/-- Of the key's own one is, with the new value, unless one was found before. -/
theorem retain_self (key value : Str) (found : Bool) (t : Table) :
    (retain key value found t).1.entries.filter (·.1 = key) =
      if found = false ∧ (retain key value found t).2 = true then [(key, value)] else [] := by
  fun_induction retain key value found t with
  | case1 found => cases found <;> rfl
  | case2 v t ih => simpa using ih
  | case3 found v t hfound ih =>
    have hnil : (retain key value true t).1.entries.filter (·.1 = key) = [] := by simpa using ih
    simp [hfound, hnil]
  | case4 found k v t hk ih => simpa [List.filter_cons, hk] using ih
  | case5 found raw t ih => simpa using ih

/-- An entry for the key is found if there is one. -/
theorem retain_found (key value : Str) (found : Bool) (t : Table) :
    (retain key value found t).2 = (found || t.entries.any (·.1 = key)) := by
  fun_induction retain key value found t with
  | case1 found => simp
  | case2 v t ih => simpa using ih
  | case3 found v t hfound ih => simp
  | case4 found k v t hk ih => simpa [hk] using ih
  | case5 found raw t ih => simpa using ih

/-- Once set, a key has the one entry, and another key those it had. -/
theorem entries_set (t : Table) (key value k : Str) :
    (t.set key value).entries.filter (·.1 = k) = if k = key then [(key, value)] else t.entries.filter (·.1 = k) := by
  unfold set
  dsimp only
  have hself := retain_self key value false t
  split
  · next hfound =>
    split
    · next hk => rw [hk, hself, if_pos ⟨rfl, hfound⟩]
    · next hk => rw [retain_other hk]
  · next hfound =>
    rw [entries_append, List.filter_append]
    split
    · next hk =>
      rw [hk, hself, if_neg fun h => hfound h.2]
      simp
    · next hk =>
      rw [retain_other hk]
      simp [Ne.symm hk]

theorem other_mem_retain {key value : Str} {found : Bool} {t : Table} {raw : List UInt8}
    (h : .other raw ∈ (retain key value found t).1) : .other raw ∈ t := by
  fun_induction retain key value found t with
  | case1 => cases h
  | case2 v t ih => exact List.mem_cons_of_mem _ (ih h)
  | case3 found v t _ ih => exact List.mem_cons_of_mem _ (ih (by simpa using h))
  | case4 found k v t _ ih => exact List.mem_cons_of_mem _ (ih (by simpa using h))
  | case5 found raw' t ih =>
    rcases List.mem_cons.1 h with h | h
    · exact h ▸ List.mem_cons_self
    · exact List.mem_cons_of_mem _ (ih h)

theorem other_mem_set {t : Table} {key value : Str} {raw : List UInt8} (h : .other raw ∈ t.set key value) :
    .other raw ∈ t := by
  unfold set at h
  dsimp only at h
  split at h
  · exact other_mem_retain h
  · rcases List.mem_append.1 h with h | h
    · exact other_mem_retain h
    · cases List.mem_singleton.1 h

theorem entries_removeWhere (t : Table) (forgets : Str → Bool) :
    (t.removeWhere forgets).1.entries = t.entries.filter fun p => !forgets p.1 := by
  induction t with
  | nil => rfl
  | cons line t ih =>
    simp only [removeWhere] at ih ⊢
    cases line with
    | entry k v => cases h : forgets k <;> simp [h, ih]
    | other raw => simpa [List.filter_cons] using ih

end Table

/-! ## The pins of a file -/

theorem pinFor_eq (pins : List (Str × Str)) (k : Str) :
    Trust.pinFor pins k = ((pins.filter (·.1 = k)).head?).map Prod.snd := by
  rw [Trust.pinFor, List.head?_filter]

namespace File

theorem entry_ne_nil {file : File} {p : Str × Str} (h : p ∈ file.pins) : p.1 ≠ [] ∧ p.2 ≠ [] := by
  obtain ⟨line, hline, hp⟩ := List.mem_filterMap.1 h
  cases line with
  | entry k v =>
    cases hp
    exact read_parse file _ hline
  | other raw => cases hp

theorem pins_toBytes {file : File} {t : Table} (h : ∀ raw, .other raw ∈ t → .other raw ∈ Table.parse file) :
    pins t.toBytes = t.entries.filter fun p => p.1 ≠ [] ∧ p.2 ≠ [] :=
  entries_parse_toBytes fun raw hraw => read_parse file _ (h raw hraw)

/-- What is left are the pins that are not forgotten, as they were. -/
theorem pins_removeWhere (file : File) (forgets : Str → Bool) :
    (file.removeWhere forgets).1.pins = file.pins.filter fun p => !forgets p.1 := by
  unfold removeWhere
  dsimp only
  split
  · next hnone =>
    have hkeep : ∀ p ∈ file.pins, (!forgets p.1) = true := by
      intro p hp
      have hfilter := List.filter_eq_nil_iff.1 hnone p hp
      simpa using hfilter
    rw [List.filter_eq_self.2 hkeep]
  · have hraw : ∀ raw, .other raw ∈ ((Table.parse file).removeWhere forgets).1 → .other raw ∈ Table.parse file :=
      fun raw h => (List.mem_filter.1 h).1
    rw [pins_toBytes hraw, Table.entries_removeWhere]
    refine List.filter_eq_self.2 fun p hp => ?_
    simpa using entry_ne_nil (List.mem_filter.1 hp).1

/-- What a key is pinned to once one is set: the key the value, if a line can hold them, and any other
key what it was. -/
theorem pinFor_set (file : File) (key value k : Str) :
    Trust.pinFor (file.set key value).pins k =
      if k = key then if key ≠ [] ∧ value ≠ [] then some value else none else Trust.pinFor file.pins k := by
  unfold set
  dsimp only
  split
  · next hget =>
    have hpin : Trust.pinFor file.pins key = some value := hget
    split
    · next hk =>
      obtain ⟨p, hp, rfl⟩ := Option.map_eq_some_iff.1 hpin
      have hne := entry_ne_nil (List.mem_of_find?_eq_some hp)
      have hkey : p.1 = key := by simpa using List.find?_some hp
      rw [hk, hpin, if_pos (hkey ▸ hne)]
    · rfl
  · rw [pins_toBytes fun raw hraw => Table.other_mem_set hraw, pinFor_eq, List.filter_filter]
    simp only [Bool.and_comm (decide (_ = k))]
    rw [← List.filter_filter, Table.entries_set]
    split
    · next hk =>
      split
      · next hne => simp [hne]
      · next hne =>
        rw [List.filter_cons_of_neg (by simpa using hne)]
        rfl
    · have hself : ((Table.parse file).entries.filter (·.1 = k)).filter (fun p => p.1 ≠ [] ∧ p.2 ≠ []) =
          (Table.parse file).entries.filter (·.1 = k) := by
        refine List.filter_eq_self.2 fun p hp => ?_
        simpa using entry_ne_nil (List.mem_filter.1 hp).1
      rw [hself, pinFor_eq]
      rfl

end File

end Vento.Linux.KnownHosts
