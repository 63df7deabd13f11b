import Vento.Lib.Str
/-!
# Numbers in C and in Rust

`strtol` in base ten, of a string that is the list of its characters, beside `parse::<u32>` after trimming. What
each reads whole is a numeral (`Numeral`): digits after a sign, if there is one, and after what may lead them.
-/

namespace Vento.Lib.Str

/-- `isspace`. -/
def isSpace (c : Char) : Bool := c == ' ' || (0x09 ≤ c.toNat && c.toNat ≤ 0x0d)

/-- The value of decimal digits. -/
def decimal (digits : Str) : Nat := digits.foldl (fun n c => 10 * n + (c.toNat - '0'.toNat)) 0

/-- How wide a `long` is. -/
inductive Long where
  | bits32
  | bits64
deriving DecidableEq, Repr

/-- `LONG_MAX`. -/
def Long.max : Long → Nat
  | .bits32 => 0x7fffffff
  | .bits64 => 0x7fffffffffffffff

/-- A number out of range is the bound it is past. -/
def Long.clamp (l : Long) (n : Int) : Int := Max.max (-(l.max : Int) - 1) (Min.min n l.max)

def unsigned (s : Str) : Bool × Str :=
  match s with
  | '+' :: s => (false, s)
  | '-' :: s => (true, s)
  | s => (false, s)

/-- `strtol`: the number and what is left after it, if there is one. -/
def strtol (l : Long) (s : Str) : Option (Int × Str) :=
  let (neg, s) := unsigned (s.dropWhile isSpace)
  let digits := s.takeWhile Char.isDigit
  if digits = [] then none
  else some (l.clamp (if neg then -(decimal digits : Int) else decimal digits), s.dropWhile Char.isDigit)

/-- A number written out: whether it has a minus sign, and what its digits come to. -/
def Numeral (lead : Char → Bool) (s : Str) (neg : Bool) (n : Nat) : Prop :=
  ∃ w sign digits, s = w ++ (sign ++ digits) ∧ (∀ c ∈ w, lead c = true) ∧
    (neg = false ∧ (sign = [] ∨ sign = ['+']) ∨ neg = true ∧ sign = ['-']) ∧
    digits ≠ [] ∧ (∀ c ∈ digits, c.isDigit = true) ∧ n = decimal digits

/-- The decimal digits of `n`, with zeros before them if there are any. -/
def Digits (t : Str) (n : Nat) : Prop := t ≠ [] ∧ (∀ c ∈ t, c.isDigit = true) ∧ n = decimal t

theorem Digits.numeral {t : Str} {n : Nat} (h : Digits t n) (lead : Char → Bool) : Numeral lead t false n :=
  ⟨[], [], t, rfl, nofun, .inl ⟨rfl, .inl rfl⟩, h⟩

/-- What a number is written as is its digits. -/
theorem digits_repr (n : Nat) : Digits n.repr.toList n := by
  have hdigits : n.repr.toList = Nat.toDigits 10 n := Nat.toList_repr
  rw [hdigits]
  refine ⟨Nat.toDigits_ne_nil, fun c hc => Nat.isDigit_of_mem_toDigits (by decide) (by decide) hc, ?_⟩
  exact Nat.ofDigitChars_ten_toDigits.symm

/-- What may lead a number is no part of it. -/
structure Leads (lead : Char → Bool) : Prop where
  plus : lead '+' = false
  minus : lead '-' = false
  digit : ∀ c : Char, c.isDigit = true → lead c = false

theorem isDigit_lt {c : Char} (h : c.isDigit = true) : c.toNat < 58 := by
  simp only [Char.isDigit, Bool.and_eq_true, decide_eq_true_eq] at h
  exact Nat.lt_succ_of_le h.2

theorem leads_isSpace : Leads isSpace where
  plus := by decide
  minus := by decide
  digit c h := by
    exact forall_toNat_lt (P := fun c => c.isDigit = true → isSpace c = false) (b := 58) (by decide) c (isDigit_lt h) h

theorem leads_isWhitespace : Leads isWhitespace where
  plus := by decide
  minus := by decide
  digit c h := by
    exact forall_toNat_lt (P := fun c => c.isDigit = true → isWhitespace c = false) (b := 58) (by decide) c (isDigit_lt h) h

theorem isWhitespace_of_isSpace {c : Char} (h : isSpace c = true) : isWhitespace c = true := by
  have hlt : c.toNat < 58 := by
    simp only [isSpace, Bool.or_eq_true, Bool.and_eq_true, decide_eq_true_eq, beq_iff_eq] at h
    rcases h with rfl | ⟨-, h⟩
    · decide
    · omega
  exact forall_toNat_lt (P := fun c => isSpace c = true → isWhitespace c = true) (b := 58) (by decide) c hlt h

/-- No digit begins like a sign. -/
theorem unsigned_digits {digits : Str} (h : ∀ c ∈ digits, c.isDigit = true) : unsigned digits = (false, digits) := by
  unfold unsigned
  split
  · exact absurd (h '+' List.mem_cons_self) (by decide)
  · exact absurd (h '-' List.mem_cons_self) (by decide)
  · rfl

theorem unsigned_sign {neg : Bool} {sign digits : Str}
    (hsign : neg = false ∧ (sign = [] ∨ sign = ['+']) ∨ neg = true ∧ sign = ['-']) (h : ∀ c ∈ digits, c.isDigit = true) :
    unsigned (sign ++ digits) = (neg, digits) := by
  rcases hsign with ⟨rfl, rfl | rfl⟩ | ⟨rfl, rfl⟩
  · exact unsigned_digits h
  · rfl
  · rfl

theorem unsigned_sound {s rest : Str} {neg : Bool} (h : unsigned s = (neg, rest)) :
    ∃ sign, s = sign ++ rest ∧ (neg = false ∧ (sign = [] ∨ sign = ['+']) ∨ neg = true ∧ sign = ['-']) := by
  unfold unsigned at h
  split at h
  · cases h
    exact ⟨['+'], rfl, .inl ⟨rfl, .inr rfl⟩⟩
  · cases h
    exact ⟨['-'], rfl, .inr ⟨rfl, rfl⟩⟩
  · cases h
    exact ⟨[], rfl, .inl ⟨rfl, .inl rfl⟩⟩

/-- What leads a numeral ends where its sign or its digits begin. -/
theorem dropWhile_numeral {lead : Char → Bool} (hl : Leads lead) {w sign digits : Str} {neg : Bool}
    (hw : ∀ c ∈ w, lead c = true) (hsign : neg = false ∧ (sign = [] ∨ sign = ['+']) ∨ neg = true ∧ sign = ['-'])
    (hne : digits ≠ []) (hdigits : ∀ c ∈ digits, c.isDigit = true) :
    (w ++ (sign ++ digits)).dropWhile lead = sign ++ digits := by
  rw [List.dropWhile_append_of_pos hw]
  rcases hsign with ⟨-, rfl | rfl⟩ | ⟨-, rfl⟩
  · cases digits with
    | nil => exact absurd rfl hne
    | cons c digits => simp [hl.digit c (hdigits c List.mem_cons_self)]
  · simp [hl.plus]
  · simp [hl.minus]

/-- `strtol` reads all of a text if it is a numeral. -/
theorem strtol_eq_some {l : Long} {s : Str} {v : Int} :
    strtol l s = some (v, []) ↔ ∃ neg n, Numeral isSpace s neg n ∧ v = l.clamp (if neg then -(n : Int) else n) := by
  constructor
  · intro h
    unfold strtol at h
    generalize hu : unsigned (s.dropWhile isSpace) = u at h
    obtain ⟨neg, rest⟩ := u
    dsimp only at h
    split at h
    · cases h
    · next hne =>
      simp only [Option.some.injEq, Prod.mk.injEq] at h
      obtain ⟨hv, hrest⟩ := h
      obtain ⟨sign, hs, hsign⟩ := unsigned_sound hu
      have hdigits : rest.takeWhile Char.isDigit = rest := by
        have happ := List.takeWhile_append_dropWhile (p := Char.isDigit) (l := rest)
        rwa [hrest, List.append_nil] at happ
      rw [hdigits] at hv hne
      refine ⟨neg, decimal rest, ⟨s.takeWhile isSpace, sign, rest, ?_, fun c hc => List.mem_takeWhile_imp hc, hsign, hne, ?_, rfl⟩,
        hv.symm⟩
      · rw [← hs, List.takeWhile_append_dropWhile]
      · intro c hc
        rw [← hdigits] at hc
        exact List.mem_takeWhile_imp hc
  · rintro ⟨neg, n, ⟨w, sign, digits, rfl, hw, hsign, hne, hdigits, rfl⟩, rfl⟩
    unfold strtol
    rw [dropWhile_numeral leads_isSpace hw hsign hne hdigits, unsigned_sign hsign hdigits]
    dsimp only
    have htake : digits.takeWhile Char.isDigit = digits := List.takeWhile_eq_self_iff.2 hdigits
    have hdrop : digits.dropWhile Char.isDigit = [] := List.dropWhile_eq_nil_iff.2 hdigits
    rw [htake, hdrop, if_neg hne]

theorem parseU32_eq_some {s : Str} {n : Nat} :
    parseU32 s = some n ↔ ∃ sign digits, s = sign ++ digits ∧ (sign = [] ∨ sign = ['+']) ∧ digits ≠ [] ∧
      (∀ c ∈ digits, c.isDigit = true) ∧ n = decimal digits ∧ n < 2 ^ 32 := by
  constructor
  · intro h
    unfold parseU32 at h
    dsimp only at h
    have hsign : ∃ sign, s = sign ++ (if s.head? = some '+' then s.tail else s) ∧ (sign = [] ∨ sign = ['+']) := by
      split
      · next hhead =>
        obtain ⟨t, rfl⟩ := List.head?_eq_some_iff.1 hhead
        exact ⟨['+'], rfl, .inr rfl⟩
      · exact ⟨[], rfl, .inl rfl⟩
    generalize (if s.head? = some '+' then s.tail else s) = digits at h hsign
    obtain ⟨sign, hs, hsign⟩ := hsign
    split at h
    · cases h
    · next hok =>
      rw [not_or, Bool.not_eq_true, List.any_eq_false] at hok
      split at h
      · next hlt =>
        cases h
        exact ⟨sign, digits, hs, hsign, hok.1, fun c hc => by simpa using hok.2 c hc, rfl, hlt⟩
      · cases h
  · rintro ⟨sign, digits, rfl, hsign, hne, hdigits, rfl, hlt⟩
    have hstrip : (if (sign ++ digits).head? = some '+' then (sign ++ digits).tail else sign ++ digits) = digits := by
      rcases hsign with rfl | rfl
      · rw [List.nil_append, if_neg]
        intro hhead
        obtain ⟨t, rfl⟩ := List.head?_eq_some_iff.1 hhead
        exact absurd (hdigits '+' List.mem_cons_self) (by decide)
      · rfl
    unfold parseU32
    dsimp only
    rw [hstrip, if_neg]
    · exact if_pos hlt
    · rw [not_or, Bool.not_eq_true, List.any_eq_false]
      exact ⟨hne, fun c hc => by simp [hdigits c hc]⟩

theorem Digits.white {t : Str} {n : Nat} (ht : Digits t n) : ∀ c ∈ t, isWhitespace c = false := fun c hc =>
  leads_isWhitespace.digit c (ht.2.1 c hc)

theorem Digits.colon {t : Str} {n : Nat} (ht : Digits t n) : ':' ∉ t := fun hmem => absurd (ht.2.1 _ hmem) (by decide)

/-- A numeral ends in a digit. -/
theorem Numeral.last {lead : Char → Bool} {s : Str} {neg : Bool} {n : Nat} (h : Numeral lead s neg n) :
    ∃ c, s.getLast? = some c ∧ c.isDigit = true := by
  obtain ⟨w, sign, digits, rfl, -, -, hne, hdigits, -⟩ := h
  refine ⟨digits.getLast hne, ?_, hdigits _ (List.getLast_mem hne)⟩
  rw [List.getLast?_append_of_ne_nil _ (List.append_ne_nil_of_right_ne_nil _ hne), List.getLast?_append_of_ne_nil _ hne,
    List.getLast?_eq_some_getLast hne]

/-- A text that ends in no whitespace is parsed as the numeral that it is. -/
theorem parseU32_trim_eq_some {s : Str} {n : Nat} (hlast : ∀ c ∈ s.getLast?, isWhitespace c = false) :
    parseU32 (trim s) = some n ↔ Numeral isWhitespace s false n ∧ n < 2 ^ 32 := by
  rw [parseU32_eq_some]
  constructor
  · rintro ⟨sign, digits, htrim, hsign, hne, hdigits, hn, hlt⟩
    obtain ⟨w, w', hs, hw, hw'⟩ := exists_trimMatches isWhitespace s
    have hnil : w' = [] := by
      by_contra hne'
      have hmem : w'.getLast hne' ∈ s.getLast? := by
        rw [hs, List.getLast?_append_of_ne_nil _ (List.append_ne_nil_of_right_ne_nil _ hne'),
          List.getLast?_append_of_ne_nil _ hne', List.getLast?_eq_some_getLast hne']
        rfl
      exact absurd (hw' _ (List.getLast_mem hne')) (by simp [hlast _ hmem])
    rw [hnil, List.append_nil, show trimMatches isWhitespace s = sign ++ digits from htrim] at hs
    exact ⟨⟨w, sign, digits, hs, hw, .inl ⟨rfl, hsign⟩, hne, hdigits, hn⟩, hlt⟩
  · rintro ⟨⟨w, sign, digits, rfl, hw, hsign, hne, hdigits, hn⟩, hlt⟩
    have hdrop := dropWhile_numeral leads_isWhitespace hw hsign hne hdigits
    have hbare : (sign ++ digits).rdropWhile isWhitespace = sign ++ digits := by
      rw [List.rdropWhile_eq_self_iff]
      intro hne'
      rw [List.getLast_append_of_right_ne_nil _ _ hne]
      simp [leads_isWhitespace.digit _ (hdigits _ (List.getLast_mem hne))]
    rcases hsign with ⟨-, hsign⟩ | ⟨hfalse, -⟩
    · exact ⟨sign, digits, by rw [trim, trimMatches, hdrop, hbare], hsign, hne, hdigits, hn, hlt⟩
    · cases hfalse

end Vento.Lib.Str
