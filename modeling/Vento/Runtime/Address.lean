import Vento.Lib.Case
/-!
# The text of the address field

`split` of `runtime/src/address.rs`: a host and a port, of an address as it was typed.

`Explicit` are the forms of an address that names a port, and `split_iff_explicit` that they are
all. Folding for case leaves the form and the port (`split_toLowercase`).
-/

namespace Vento.Runtime.Address

open Vento.Lib Vento.Lib.Str

/-- What a number after the colon means. -/
inductive Ports where
  | plain
  /-- Under 100 is a display number, and `host::port` an explicit port. -/
  | display
deriving DecidableEq, Repr

def bracketed (address : Str) (defaultPort : Nat) : Str :=
  "IPv6 addresses must be bracketed, like [::1]:".toList ++ defaultPort.repr.toList ++ ", not ".toList ++ address

def hostAnd (host : Str) (port : Nat) : Except Str (Str × Nat) :=
  if host = [] then .error "No host in address".toList else .ok (host, port)

def number (tail address : Str) (ports : Ports) : Except Str Nat :=
  match parseU32 (trim tail) with
  | none => .error (address ++ " does not end in a port number".toList)
  | some n =>
    let n := if ports = .display ∧ n < 100 then 5900 + n else n
    if n = 0 ∨ n > 65535 then .error (address ++ " does not end in a port number".toList) else .ok n

/-- The host and the tail of `host::port`, which is one under the display reading. -/
def doubled (ports : Ports) (address : Str) : Option (Str × Str) :=
  match splitOnce [':', ':'] address with
  | some (host, tail) =>
    if ports = .display ∧ host ≠ [] ∧ ':' ∉ host ∧ ':' ∉ tail then some (host, tail) else none
  | none => none

def split (address : Str) (defaultPort : Nat) (ports : Ports) : Except Str (Str × Nat) :=
  let address := trim address
  match address with
  | '[' :: rest =>
    match splitOnce [']'] rest with
    | none => .error (address ++ " missing closing bracket".toList)
    | some (host, rest) =>
      match trim rest with
      | ':' :: tail => do hostAnd (trim host) (← number tail address ports)
      | [] => hostAnd (trim host) defaultPort
      | _ => .error (address ++ " has junk after closing bracket".toList)
  | _ =>
    match doubled ports address with
    | some (host, tail) => do hostAnd host (← number tail address .plain)
    | none =>
      match rsplitOnce ':' address with
      | some (host, tail) =>
        if ':' ∈ host then .error (bracketed address defaultPort) else do hostAnd host (← number tail address ports)
      | none => hostAnd address defaultPort

example : split "10.0.0.5:1".toList 5900 .display = .ok ("10.0.0.5".toList, 5901) := by rfl

example : split " [fdb7::1] :2 ".toList 0 .plain = .ok ("fdb7::1".toList, 2) := by rfl

/-! ## What names a port -/

theorem doubled_eq_some {ports : Ports} {address host tail : Str} :
    doubled ports address = some (host, tail) ↔
      address = host ++ ':' :: ':' :: tail ∧ ports = .display ∧ host ≠ [] ∧ ':' ∉ host ∧ ':' ∉ tail := by
  unfold doubled
  constructor
  · intro h
    split at h
    · next a b hsplit =>
      split at h
      · next hcond =>
        cases h
        exact ⟨splitOnce_sound hsplit, hcond⟩
      · cases h
    · cases h
  · rintro ⟨rfl, hcond⟩
    rw [show ':' :: ':' :: tail = [':', ':'] ++ tail from rfl, splitOnce_append [':'] hcond.2.2.1 tail]
    exact if_pos hcond

/-- The characters of a text that `number` reads as one. -/
def IsPortChar (c : Char) : Prop := isWhitespace c = true ∨ c.isDigit = true ∨ c = '+'

theorem isPortChar_of_parseU32 {s : Str} {n : Nat} (h : parseU32 s = some n) : ∀ c ∈ s, c.isDigit = true ∨ c = '+' := by
  unfold parseU32 at h
  dsimp only at h
  generalize hd : (if s.head? = some '+' then s.tail else s) = digits at h
  split at h
  · cases h
  · next hdigits =>
    rw [not_or, Bool.not_eq_true, List.any_eq_false] at hdigits
    have hall : ∀ c ∈ digits, c.isDigit = true := fun c hc => by simpa using hdigits.2 c hc
    intro c hc
    split at hd
    · next hsign =>
      cases s with
      | nil => cases hc
      | cons d s =>
        rcases List.mem_cons.1 hc with rfl | hc
        · exact .inr (Option.some.inj hsign)
        · exact .inl (hall c (hd ▸ hc))
    · exact .inl (hall c (hd ▸ hc))

/-- A number is read whatever address it is of, from characters of a port. -/
theorem number_ok {tail address : Str} {ports : Ports} {q : Nat} (h : number tail address ports = .ok q) :
    (∀ address', number tail address' ports = .ok q) ∧ q ≠ 0 ∧ ∀ c ∈ tail, IsPortChar c := by
  unfold number at h
  split at h
  · cases h
  · next n hn =>
    dsimp only at h
    generalize hm : (if ports = .display ∧ n < 100 then 5900 + n else n) = m at h
    split at h
    · cases h
    · next hq =>
      cases h
      refine ⟨fun address' => ?_, fun h0 => hq (.inl h0), ?_⟩
      · unfold number
        rw [hn]
        dsimp only
        rw [hm, if_neg hq]
      · intro c hc
        obtain ⟨w, w', htail, hw, hw'⟩ := exists_trimMatches isWhitespace tail
        rw [htail, List.mem_append, List.mem_append] at hc
        rcases hc with hc | hc | hc
        · exact .inl (hw c hc)
        · exact .inr (isPortChar_of_parseU32 hn c hc)
        · exact .inl (hw' c hc)

/-- The forms of a trimmed address that names a port, with its host and the port. -/
inductive Explicit (ports : Ports) : Str → Str → Nat → Prop
  | bracketed {host rest tail : Str} {q : Nat} (hhost : ']' ∉ host) (hrest : trim rest = ':' :: tail)
    (hq : ∀ address, number tail address ports = .ok q) (hne : trim host ≠ []) :
    Explicit ports ('[' :: (host ++ ']' :: rest)) (trim host) q
  | doubled {host tail : Str} {q : Nat} (hports : ports = .display) (hbracket : host.head? ≠ some '[') (hne : host ≠ [])
    (hhost : ':' ∉ host) (htail : ':' ∉ tail) (hq : ∀ address, number tail address .plain = .ok q) :
    Explicit ports (host ++ ':' :: ':' :: tail) host q
  | single {host tail : Str} {q : Nat} (hbracket : host.head? ≠ some '[') (hne : host ≠ []) (hhost : ':' ∉ host)
    (htail : ':' ∉ tail) (hq : ∀ address, number tail address ports = .ok q) :
    Explicit ports (host ++ ':' :: tail) host q

theorem hostAnd_ok {host h : Str} {port q : Nat} : hostAnd host port = .ok (h, q) ↔ host ≠ [] ∧ host = h ∧ port = q := by
  unfold hostAnd
  split
  · next hnil => simp [hnil]
  · next hne => simp [hne]

/-- `number` and then `host_and`. -/
theorem hostAnd_number_ok {host h tail address : Str} {ports : Ports} {q : Nat} :
    (do hostAnd host (← number tail address ports)) = Except.ok (h, q) ↔
      number tail address ports = .ok q ∧ host ≠ [] ∧ host = h := by
  cases hn : number tail address ports with
  | error e => simp [bind, Except.bind]
  | ok n =>
    show hostAnd host n = _ ↔ _
    rw [hostAnd_ok]
    simp only [Except.ok.injEq]
    tauto

theorem bracket_of_append {host t rest : Str} (hne : host ≠ []) (h : host ++ t = '[' :: rest) : host.head? = some '[' := by
  cases host with
  | nil => exact absurd rfl hne
  | cons c host =>
    cases h
    rfl

theorem split_iff_explicit {address h : Str} {ports : Ports} {q : Nat} (hq : q ≠ 0) :
    split address 0 ports = .ok (h, q) ↔ Explicit ports (trim address) h q := by
  unfold split
  dsimp only
  constructor
  · intro hs
    split at hs
    · next rest hbracket =>
      rw [hbracket]
      split at hs
      · cases hs
      · next host rest' hsplit =>
        obtain ⟨rfl, hhost⟩ := splitOnce_singleton.1 hsplit
        split at hs
        · next tail hrest =>
          obtain ⟨hnum, hne, rfl⟩ := hostAnd_number_ok.1 hs
          exact .bracketed hhost hrest (number_ok hnum).1 hne
        · exact absurd (hostAnd_ok.1 hs).2.2.symm hq
        · cases hs
    · next hbracket =>
      have hhead : ∀ host t : Str, trim address = host ++ ':' :: t → host ≠ [] → host.head? ≠ some '[' := by
        intro host t heq hne hhead
        cases host with
        | nil => exact hne rfl
        | cons c host =>
          cases hhead
          exact hbracket _ heq
      split at hs
      · next host tail hdoubled =>
        obtain ⟨heq, hports, hne, hhost, htail⟩ := doubled_eq_some.1 hdoubled
        obtain ⟨hnum, -, rfl⟩ := hostAnd_number_ok.1 hs
        rw [heq]
        exact .doubled hports (hhead _ _ heq hne) hne hhost htail (number_ok hnum).1
      · split at hs
        · next host tail hsplit =>
          obtain ⟨heq, htail⟩ := rsplitOnce_eq_some.1 hsplit
          split at hs
          · cases hs
          · next hhost =>
            obtain ⟨hnum, hne, rfl⟩ := hostAnd_number_ok.1 hs
            rw [heq]
            exact .single (hhead _ _ heq hne) hne hhost htail (number_ok hnum).1
        · exact absurd (hostAnd_ok.1 hs).2.2.symm hq
  · intro he
    generalize trim address = y at he ⊢
    cases he with
    | @bracketed host rest tail _ hhost hrest hnum hne =>
      have hsplit : splitOnce [']'] (host ++ ']' :: rest) = some (host, rest) := splitOnce_singleton.2 ⟨rfl, hhost⟩
      simp only [hsplit, hrest]
      exact hostAnd_number_ok.2 ⟨hnum _, hne, rfl⟩
    | @doubled _ tail _ hports hbracket hne hhost htail hnum =>
      rw [doubled_eq_some.2 ⟨rfl, hports, hne, hhost, htail⟩]
      split
      · next rest heq => exact absurd (bracket_of_append hne heq) hbracket
      · exact hostAnd_number_ok.2 ⟨hnum _, hne, rfl⟩
    | @single _ tail _ hbracket hne hhost htail hnum =>
      have hdoubled : doubled ports (h ++ ':' :: tail) = none := by
        cases hd : doubled ports (h ++ ':' :: tail) with
        | none => rfl
        | some p =>
          have hcount := congrArg (List.count ':') (doubled_eq_some.1 hd).1
          rw [List.count_append, List.count_append, List.count_cons_self, List.count_cons_self, List.count_cons_self,
            List.count_eq_zero_of_not_mem hhost, List.count_eq_zero_of_not_mem htail] at hcount
          omega
      rw [hdoubled, rsplitOnce_eq_some.2 ⟨rfl, htail⟩]
      split
      · next rest heq => exact absurd (bracket_of_append hne heq) hbracket
      · dsimp only
        rw [if_neg hhost]
        exact hostAnd_number_ok.2 ⟨hnum _, hne, rfl⟩

theorem isPortChar_of_trim {rest tail : Str} (h : trim rest = ':' :: tail) (htail : ∀ c ∈ tail, IsPortChar c) :
    ∀ c ∈ rest, c = ':' ∨ IsPortChar c := by
  obtain ⟨w, w', hrest, hw, hw'⟩ := exists_trimMatches isWhitespace rest
  intro c hc
  rw [hrest, show trimMatches isWhitespace rest = ':' :: tail from h, List.mem_append, List.mem_append, List.mem_cons] at hc
  rcases hc with hc | (hc | hc) | hc
  · exact .inr (.inl (hw c hc))
  · exact .inl hc
  · exact .inr (htail c hc)
  · exact .inr (.inl (hw' c hc))

/-- What names a port ends in it. -/
theorem Explicit.ends {ports : Ports} {y h : Str} {q : Nat} (he : Explicit ports y h q) :
    ∃ pre z, y = pre ++ z ∧ z ≠ [] ∧ ∀ c ∈ z, c = ':' ∨ IsPortChar c := by
  cases he with
  | @bracketed host rest tail _ hhost hrest hnum hne =>
    refine ⟨'[' :: (host ++ [']']), rest, by simp, ?_, isPortChar_of_trim hrest (number_ok (hnum [])).2.2⟩
    rintro rfl
    cases hrest
  | @doubled _ tail _ hports hbracket hne hhost htail hnum =>
    refine ⟨h ++ [':'], ':' :: tail, by simp, List.cons_ne_nil _ _, List.forall_mem_cons.2 ⟨.inl rfl, fun c hc => ?_⟩⟩
    exact .inr ((number_ok (hnum [])).2.2 c hc)
  | @single _ tail _ hbracket hne hhost htail hnum =>
    refine ⟨h, ':' :: tail, rfl, List.cons_ne_nil _ _, List.forall_mem_cons.2 ⟨.inl rfl, fun c hc => ?_⟩⟩
    exact .inr ((number_ok (hnum [])).2.2 c hc)

/-- What names a port has a character that is no part of one, and no bracket, as often as its host. -/
theorem Explicit.count {ports : Ports} {y h : Str} {q : Nat} (he : Explicit ports y h q) {x : Char}
    (hx : ¬(x = ':' ∨ IsPortChar x)) (hopen : x ≠ '[') (hclose : x ≠ ']') : h.count x = y.count x := by
  have hnot : ∀ z : Str, (∀ c ∈ z, c = ':' ∨ IsPortChar c) → z.count x = 0 := by
    intro z hz
    rw [List.count_eq_zero]
    exact fun hmem => hx (hz _ hmem)
  have hcolon : ':' ≠ x := fun h => hx (.inl h.symm)
  cases he with
  | @bracketed host rest tail _ hhost hrest hnum hne =>
    have hwhite : isWhitespace x = false := by
      rw [Bool.eq_false_iff]
      exact fun h => hx (.inr (.inl h))
    rw [trim, count_trimMatches hwhite, List.count_cons_of_ne (Ne.symm hopen), List.count_append,
      List.count_cons_of_ne (Ne.symm hclose), hnot rest (isPortChar_of_trim hrest (number_ok (hnum [])).2.2)]
    rfl
  | @doubled _ tail _ hports hbracket hne hhost htail hnum =>
    rw [List.count_append, List.count_cons_of_ne hcolon, List.count_cons_of_ne hcolon,
      hnot tail fun c hc => .inr ((number_ok (hnum [])).2.2 c hc)]
    rfl
  | @single _ tail _ hbracket hne hhost htail hnum =>
    rw [List.count_append, List.count_cons_of_ne hcolon, hnot tail fun c hc => .inr ((number_ok (hnum [])).2.2 c hc)]
    rfl

/-! ## Folding for case -/

section Case

variable {u : Unicode}

theorem IsPortChar.neutral (hu : u.Documented) {c : Char} (h : IsPortChar c) : Unicode.Neutral u c := by
  rcases h with h | h | rfl
  · exact hu.neutral_white h
  · exact hu.neutral_digit h
  · exact hu.neutral_ascii (by decide) (by decide)

/-- The form of an address is that of the address in lower case, whose host is in lower case. -/
theorem Explicit.toLowercase (hu : u.Documented) {ports : Ports} {y h : Str} {q : Nat} (he : Explicit ports y h q) :
    Explicit ports (u.toLowercase y) (u.toLowercase h) q := by
  have hcolon : Unicode.Neutral u ':' := hu.neutral_ascii (by decide) (by decide)
  have hcolon' : ∀ s : Str, ':' ∉ s → ':' ∉ u.toLowercase s := fun s hs hmem =>
    hs ((hu.mem_toLowercase (by decide) (by decide) s).1 hmem)
  cases he with
  | @bracketed host rest tail _ hhost hrest hnum hne =>
    have hopen : ∀ c ∈ ['['], Unicode.Neutral u c := by
      simpa using hu.neutral_ascii (show '['.toNat < 128 by decide) (by decide)
    have hclose : ∀ c ∈ ']' :: rest, Unicode.Neutral u c := by
      refine List.forall_mem_cons.2 ⟨hu.neutral_ascii (by decide) (by decide), fun c hc => ?_⟩
      rcases isPortChar_of_trim hrest (number_ok (hnum [])).2.2 c hc with rfl | hc
      · exact hcolon
      · exact hc.neutral hu
    have hlower : u.toLowercase ('[' :: (host ++ ']' :: rest)) = '[' :: (u.toLowercase host ++ ']' :: rest) := by
      rw [← List.singleton_append, Unicode.toLowercase_neutral_append hopen, Unicode.toLowercase_append_neutral _ hclose]
      rfl
    have htrim : trim (u.toLowercase host) = u.toLowercase (trim host) :=
      hu.apart_white.trimMatches_toLowercase hu.lower_ne_nil host
    rw [hlower, ← htrim]
    refine .bracketed (fun hmem => hhost ((hu.mem_toLowercase (by decide) (by decide) host).1 hmem)) hrest hnum ?_
    rw [htrim]
    exact hu.toLowercase_ne_nil hne
  | @doubled _ tail _ hports hbracket hne hhost htail hnum =>
    have hneutral : ∀ c ∈ ':' :: ':' :: tail, Unicode.Neutral u c :=
      List.forall_mem_cons.2 ⟨hcolon, List.forall_mem_cons.2 ⟨hcolon, fun c hc => ((number_ok (hnum [])).2.2 c hc).neutral hu⟩⟩
    rw [Unicode.toLowercase_append_neutral _ hneutral]
    exact .doubled hports (hu.head_toLowercase (by decide) (by decide) hbracket) (hu.toLowercase_ne_nil hne) (hcolon' h hhost)
      htail hnum
  | @single _ tail _ hbracket hne hhost htail hnum =>
    have hneutral : ∀ c ∈ ':' :: tail, Unicode.Neutral u c :=
      List.forall_mem_cons.2 ⟨hcolon, fun c hc => ((number_ok (hnum [])).2.2 c hc).neutral hu⟩
    rw [Unicode.toLowercase_append_neutral _ hneutral]
    exact .single (hu.head_toLowercase (by decide) (by decide) hbracket) (hu.toLowercase_ne_nil hne) (hcolon' h hhost) htail hnum

end Case

end Vento.Runtime.Address
