import Vento.Lib.CStr
import Vento.Runtime.Address
/-!
# What an address names

The forms of an address with the host and the port that each names, by what may be around them: `Leniency` is what
one implementation of the rule allows and another does not. `split` reads an address as `rust` does, trimmed.
-/

namespace Vento.Runtime.Address

open Vento.Lib Vento.Lib.Str

/-- What may stand around a host in brackets and after them is taken off by `inner`; before a number there may be
what `lead` holds of, and a minus sign if there is nothing but zeros after it. -/
structure Leniency where
  inner : Str → Str
  lead : Char → Bool
  minus : Bool

/-- A number under 100 may be a display. -/
def portOf (ports : Ports) (n : Nat) : Nat := if ports = .display ∧ n < 100 then 5900 + n else n

/-- The tail of an address names the port `q`. -/
def Number (l : Leniency) (ports : Ports) (tail : Str) (q : Nat) : Prop :=
  ∃ neg n, Numeral l.lead tail neg n ∧ (neg = true → l.minus = true ∧ n = 0) ∧ q = portOf ports n ∧ 0 < q ∧ q ≤ 65535

/-- A trimmed address, with the host and the port that it names. -/
inductive Reads (l : Leniency) (defaultPort : Nat) (ports : Ports) : Str → Str → Nat → Prop
  | name {host : Str} (hbracket : host.head? ≠ some '[') (hne : host ≠ []) (hhost : ':' ∉ host) :
    Reads l defaultPort ports host host defaultPort
  | single {host tail : Str} {q : Nat} (hbracket : host.head? ≠ some '[') (hne : host ≠ []) (hhost : ':' ∉ host)
    (htail : ':' ∉ tail) (hq : Number l ports tail q) : Reads l defaultPort ports (host ++ ':' :: tail) host q
  | doubled {host tail : Str} {q : Nat} (hports : ports = .display) (hbracket : host.head? ≠ some '[') (hne : host ≠ [])
    (hhost : ':' ∉ host) (htail : ':' ∉ tail) (hq : Number l .plain tail q) :
    Reads l defaultPort ports (host ++ ':' :: ':' :: tail) host q
  | literal {host rest : Str} (hhost : ']' ∉ host) (hne : l.inner host ≠ []) (hrest : l.inner rest = []) :
    Reads l defaultPort ports ('[' :: (host ++ ']' :: rest)) (l.inner host) defaultPort
  | literalPort {host rest tail : Str} {q : Nat} (hhost : ']' ∉ host) (hne : l.inner host ≠ [])
    (hrest : l.inner rest = ':' :: tail) (hq : Number l ports tail q) :
    Reads l defaultPort ports ('[' :: (host ++ ']' :: rest)) (l.inner host) q

/-- Any whitespace, wherever there may be some. -/
def rust : Leniency := ⟨trim, isWhitespace, false⟩

/-! ## The Rust implementation -/

theorem number_eq_ok {tail address : Str} {ports : Ports} {q : Nat} (hlast : ∀ c ∈ tail.getLast?, isWhitespace c = false) :
    number tail address ports = .ok q ↔ Number rust ports tail q := by
  unfold number Number
  constructor
  · intro h
    split at h
    · cases h
    · next n hn =>
      obtain ⟨hnum, -⟩ := (parseU32_trim_eq_some hlast).1 hn
      dsimp only at h
      generalize hm : (if ports = .display ∧ n < 100 then 5900 + n else n) = m at h
      split at h
      · cases h
      · next hq =>
        cases h
        rw [not_or, Nat.not_lt] at hq
        exact ⟨false, n, hnum, nofun, hm.symm, Nat.pos_of_ne_zero hq.1, hq.2⟩
  · rintro ⟨neg, n, hnum, hneg, rfl, hpos, hmax⟩
    cases neg with
    | true => cases (hneg rfl).1
    | false =>
      have hlt : n < 2 ^ 32 := by
        unfold portOf at hmax
        split at hmax <;> omega
      rw [(parseU32_trim_eq_some hlast).2 ⟨hnum, hlt⟩]
      refine if_neg ?_
      rw [not_or, Nat.not_lt]
      exact ⟨Nat.pos_iff_ne_zero.1 hpos, hmax⟩

/-- What a text that is not trimmed at its end ends in is not trimmed there. -/
theorem bare_last_append {p : Char → Bool} {a b : Str} (h : Bare p (a ++ b)) : ∀ c ∈ b.getLast?, p c = false := by
  intro c hc
  refine h.last c ?_
  have hne : b ≠ [] := by
    rintro rfl
    cases hc
  rw [List.getLast?_append_of_ne_nil _ hne]
  exact hc

theorem bare_last_cons {p : Char → Bool} {x : Char} {b : Str} (h : Bare p (x :: b)) : ∀ c ∈ b.getLast?, p c = false :=
  bare_last_append (a := [x]) h

theorem split_iff_reads {address h : Str} {defaultPort q : Nat} {ports : Ports} :
    split address defaultPort ports = .ok (h, q) ↔ Reads rust defaultPort ports (trim address) h q := by
  have hbare : Bare isWhitespace (trim address) := bare_trimMatches _ _
  unfold split
  dsimp only
  generalize trim address = y at hbare ⊢
  constructor
  · intro hs
    split at hs
    · next rest =>
      split at hs
      · cases hs
      · next host rest' hsplit =>
        obtain ⟨rfl, hhost⟩ := splitOnce_singleton.1 hsplit
        split at hs
        · next tail hrest =>
          obtain ⟨hnum, hne, rfl⟩ := hostAnd_number_ok.1 hs
          have hlast : ∀ c ∈ tail.getLast?, isWhitespace c = false :=
            bare_last_cons (x := ':') (hrest ▸ bare_trimMatches isWhitespace rest')
          exact .literalPort (l := rust) hhost hne hrest ((number_eq_ok hlast).1 hnum)
        · next hrest =>
          obtain ⟨hne, rfl, rfl⟩ := hostAnd_ok.1 hs
          exact .literal (l := rust) hhost hne hrest
        · cases hs
    · next hbracket =>
      have hhead : ∀ host t : Str, y = host ++ t → host ≠ [] → host.head? ≠ some '[' := by
        intro host t heq hne hhead
        cases host with
        | nil => exact hne rfl
        | cons c host =>
          cases hhead
          exact hbracket _ heq
      split at hs
      · next host tail hdoubled =>
        obtain ⟨rfl, hports, hne, hhost, htail⟩ := doubled_eq_some.1 hdoubled
        obtain ⟨hnum, -, rfl⟩ := hostAnd_number_ok.1 hs
        have hlast : ∀ c ∈ tail.getLast?, isWhitespace c = false :=
          bare_last_append (a := host ++ [':', ':']) (by simpa using hbare)
        exact .doubled hports (hhead _ _ rfl hne) hne hhost htail ((number_eq_ok hlast).1 hnum)
      · split at hs
        · next host tail hsplit =>
          obtain ⟨rfl, htail⟩ := rsplitOnce_eq_some.1 hsplit
          split at hs
          · cases hs
          · next hhost =>
            obtain ⟨hnum, hne, rfl⟩ := hostAnd_number_ok.1 hs
            have hlast : ∀ c ∈ tail.getLast?, isWhitespace c = false :=
              bare_last_append (a := host ++ [':']) (by simpa using hbare)
            exact .single (hhead _ _ rfl hne) hne hhost htail ((number_eq_ok hlast).1 hnum)
        · next hnone =>
          obtain ⟨hne, rfl, rfl⟩ := hostAnd_ok.1 hs
          exact .name (hhead _ [] (by simp) hne) hne (rsplitOnce_eq_none.1 hnone)
  · intro he
    cases he with
    | name hbracket hne hhost =>
      have hdoubled : doubled ports h = none := by
        cases hd : doubled ports h with
        | none => rfl
        | some p =>
          have heq := (doubled_eq_some.1 hd).1
          exact absurd (heq ▸ by simp : ':' ∈ h) hhost
      rw [hdoubled, rsplitOnce_eq_none.2 hhost]
      split
      · next rest heq => exact absurd rfl hbracket
      · exact hostAnd_ok.2 ⟨hne, rfl, rfl⟩
    | @single _ tail _ hbracket hne hhost htail hnum =>
      have hlast : ∀ c ∈ tail.getLast?, isWhitespace c = false := bare_last_append (a := h ++ [':']) (by simpa using hbare)
      have hdoubled : doubled ports (h ++ ':' :: tail) = none := by
        cases hd : doubled ports (h ++ ':' :: tail) with
        | none => rfl
        | some p =>
          have hcount := congrArg (List.count ':') (doubled_eq_some.1 hd).1
          rw [List.count_append, List.count_append, List.count_cons_self, List.count_cons_self, List.count_cons_self,
            List.count_eq_zero_of_not_mem hhost, List.count_eq_zero_of_not_mem htail] at hcount
          omega
      rw [hdoubled, rsplitOnce_eq_some.2 ⟨rfl, htail⟩]
      split
      · next rest heq => exact absurd (bracket_of_append hne heq) hbracket
      · dsimp only
        rw [if_neg hhost]
        exact hostAnd_number_ok.2 ⟨(number_eq_ok hlast).2 hnum, hne, rfl⟩
    | @doubled _ tail _ hports hbracket hne hhost htail hnum =>
      have hlast : ∀ c ∈ tail.getLast?, isWhitespace c = false :=
        bare_last_append (a := h ++ [':', ':']) (by simpa using hbare)
      rw [doubled_eq_some.2 ⟨rfl, hports, hne, hhost, htail⟩]
      split
      · next rest heq => exact absurd (bracket_of_append hne heq) hbracket
      · exact hostAnd_number_ok.2 ⟨(number_eq_ok hlast).2 hnum, hne, rfl⟩
    | @literal host rest hhost hne hrest =>
      have hsplit : splitOnce [']'] (host ++ ']' :: rest) = some (host, rest) := splitOnce_singleton.2 ⟨rfl, hhost⟩
      simp only [hsplit, show trim rest = [] from hrest]
      exact hostAnd_ok.2 ⟨hne, rfl, rfl⟩
    | @literalPort host rest tail _ hhost hne hrest hnum =>
      have hlast : ∀ c ∈ tail.getLast?, isWhitespace c = false :=
        bare_last_cons (x := ':') (hrest ▸ bare_trimMatches isWhitespace rest)
      have hsplit : splitOnce [']'] (host ++ ']' :: rest) = some (host, rest) := splitOnce_singleton.2 ⟨rfl, hhost⟩
      simp only [hsplit, show trim rest = ':' :: tail from hrest]
      exact hostAnd_number_ok.2 ⟨(number_eq_ok hlast).2 hnum, hne, rfl⟩

/-! ## What is recovered -/

/-- A name or an IPv4 literal: no colon, bracket or whitespace. -/
def Host (h : Str) : Prop := h ≠ [] ∧ ∀ c ∈ h, c ≠ ':' ∧ c ≠ '[' ∧ c ≠ ']' ∧ isWhitespace c = false

/-- What may stand in brackets, colons and all. -/
def Literal (v : Str) : Prop := v ≠ [] ∧ ∀ c ∈ v, c ≠ ']' ∧ isWhitespace c = false

/-- The colons outside brackets; `inside` is whether a bracket is open. -/
def unbracketed : Bool → Str → Nat
  | _, [] => 0
  | inside, c :: s => (if c = ':' ∧ inside = false then 1 else 0) + unbracketed (c == '[' || (inside && c != ']')) s

/-- An address that is `host::port`, which only the display reading has. -/
def IsDoubled (ports : Ports) (address : Str) : Prop :=
  ∃ host tail, ports = .display ∧ address = host ++ ':' :: ':' :: tail ∧ host ≠ [] ∧ host.head? ≠ some '[' ∧
    ':' ∉ host ∧ ':' ∉ tail

theorem unbracketed_le_count (inside : Bool) (s : Str) : unbracketed inside s ≤ s.count ':' := by
  induction s generalizing inside with
  | nil => exact Nat.le_refl _
  | cons c s ih =>
    have htail := ih (c == '[' || (inside && c != ']'))
    rw [unbracketed, List.count_cons]
    split
    · next hcolon =>
      rw [if_pos (beq_iff_eq.2 hcolon.1)]
      omega
    · omega

/-- What is in brackets is left out, up to the first that closes. -/
theorem unbracketed_close {host : Str} (h : ']' ∉ host) (rest : Str) :
    unbracketed true (host ++ ']' :: rest) = unbracketed false rest := by
  induction host with
  | nil => simp [unbracketed]
  | cons c host ih =>
    rw [List.mem_cons, not_or] at h
    have hin : (c == '[' || (true && c != ']')) = true := by simp [Ne.symm h.1]
    rw [List.cons_append, unbracketed, hin, ih h.2]
    simp

theorem unbracketed_open {host : Str} (h : ']' ∉ host) (rest : Str) :
    unbracketed false ('[' :: (host ++ ']' :: rest)) = unbracketed false rest := by
  rw [unbracketed]
  exact (Nat.zero_add _).trans (unbracketed_close h rest)

theorem bare_of_forall {s : Str} (h : ∀ c ∈ s, isWhitespace c = false) : Bare isWhitespace s where
  head c hc := h c (List.mem_of_mem_head? hc)
  last c hc := h c (List.mem_of_mem_getLast? hc)

theorem trim_eq_self {s : Str} (h : ∀ c ∈ s, isWhitespace c = false) : trim s = s :=
  (bare_of_forall h).trimMatches_eq_self

theorem Host.colon {h : Str} (hh : Host h) : ':' ∉ h := fun hmem => (hh.2 _ hmem).1 rfl

theorem Host.bracket {h : Str} (hh : Host h) : h.head? ≠ some '[' := fun hhead =>
  (hh.2 _ (List.mem_of_mem_head? hhead)).2.1 rfl

theorem Host.white {h : Str} (hh : Host h) : ∀ c ∈ h, isWhitespace c = false := fun c hc => (hh.2 c hc).2.2.2

theorem Literal.close {v : Str} (hv : Literal v) : ']' ∉ v := fun hmem => (hv.2 _ hmem).1 rfl

/-- Digits name the port that they are the number of. -/
theorem number_of_digits {t : Str} {n : Nat} {ports : Ports} (ht : Digits t n) (hpos : 0 < portOf ports n) (hmax : n ≤ 65535) :
    Number rust ports t (portOf ports n) := by
  refine ⟨false, n, ht.numeral _, nofun, rfl, hpos, ?_⟩
  unfold portOf
  split <;> omega

/-- A tail that is a number has no colon. -/
theorem Number.colon {l : Leniency} {ports : Ports} {tail : Str} {q : Nat} (hlead : l.lead ':' = false)
    (h : Number l ports tail q) : ':' ∉ tail := by
  obtain ⟨neg, n, ⟨w, sign, digits, rfl, hw, hsign, -, hdigits, -⟩, -⟩ := h
  rw [List.mem_append, List.mem_append, not_or, not_or]
  refine ⟨fun hmem => ?_, fun hmem => ?_, fun hmem => absurd (hdigits _ hmem) (by decide)⟩
  · rw [hw _ hmem] at hlead
    cases hlead
  · rcases hsign with ⟨-, rfl | rfl⟩ | ⟨-, rfl⟩ <;> simp at hmem

/-- An address that is read has one colon outside brackets at the most, unless it is `host::port`. -/
theorem Reads.unbracketed_le {defaultPort : Nat} {ports : Ports} {y h : Str} {q : Nat}
    (hr : Reads rust defaultPort ports y h q) : unbracketed false y ≤ 1 ∨ IsDoubled ports y := by
  cases hr with
  | name hbracket hne hhost =>
    have hle := unbracketed_le_count false y
    rw [List.count_eq_zero_of_not_mem hhost] at hle
    exact .inl (by omega)
  | @single _ tail _ hbracket hne hhost htail hnum =>
    have hle := unbracketed_le_count false (h ++ ':' :: tail)
    rw [List.count_append, List.count_cons_self, List.count_eq_zero_of_not_mem hhost,
      List.count_eq_zero_of_not_mem htail] at hle
    exact .inl (by omega)
  | @doubled _ tail _ hports hbracket hne hhost htail hnum =>
    exact .inr ⟨h, tail, hports, rfl, hne, hbracket, hhost, htail⟩
  | @literal host rest hhost hne hrest =>
    rw [unbracketed_open hhost]
    have hcount : rest.count ':' = 0 := by
      rw [← count_trimMatches (p := isWhitespace) (by decide), show trimMatches isWhitespace rest = [] from hrest]
      rfl
    have hle := unbracketed_le_count false rest
    exact .inl (by omega)
  | @literalPort host rest tail _ hhost hne hrest hnum =>
    rw [unbracketed_open hhost]
    have hcount : rest.count ':' = 1 := by
      rw [← count_trimMatches (p := isWhitespace) (by decide), show trimMatches isWhitespace rest = ':' :: tail from hrest,
        List.count_cons_self, List.count_eq_zero_of_not_mem (hnum.colon (by decide))]
    have hle := unbracketed_le_count false rest
    exact .inl (by omega)

/-- The port is the default or one that can be listened on. -/
theorem Reads.port {defaultPort : Nat} {ports : Ports} {y h : Str} {q : Nat} (hr : Reads rust defaultPort ports y h q) :
    q = defaultPort ∨ 0 < q ∧ q ≤ 65535 := by
  have hrange : ∀ {ports tail}, Number rust ports tail q → q = defaultPort ∨ 0 < q ∧ q ≤ 65535 := by
    rintro ports tail ⟨-, -, -, -, -, hq⟩
    exact .inr hq
  cases hr with
  | name hbracket hne hhost => exact .inl rfl
  | single hbracket hne hhost htail hnum => exact hrange hnum
  | doubled hports hbracket hne hhost htail hnum => exact hrange hnum
  | literal hhost hne hrest => exact .inl rfl
  | literalPort hhost hne hrest hnum => exact hrange hnum

/-- More than one colon, none of them after a bracket, is refused in words. -/
theorem split_bracketed {address : Str} {defaultPort : Nat} {ports : Ports} (hhead : (trim address).head? ≠ some '[')
    (hcolons : 2 ≤ (trim address).count ':') (hdoubled : ¬IsDoubled ports (trim address)) :
    split address defaultPort ports = .error (bracketed (trim address) defaultPort) := by
  unfold split
  dsimp only
  generalize trim address = y at hhead hcolons hdoubled ⊢
  have hnone : doubled ports y = none := by
    cases hd : doubled ports y with
    | none => rfl
    | some p =>
      obtain ⟨rfl, hports, hne, hhost, htail⟩ := doubled_eq_some.1 hd
      refine absurd ⟨p.1, p.2, hports, rfl, hne, fun hp => hhead ?_, hhost, htail⟩ hdoubled
      rw [List.head?_append, hp]
      rfl
  split
  · exact absurd rfl hhead
  · rw [hnone]
    dsimp only
    cases hr : rsplitOnce ':' y with
    | none => rw [List.count_eq_zero_of_not_mem (rsplitOnce_eq_none.1 hr)] at hcolons; omega
    | some p =>
      obtain ⟨rfl, htail⟩ := rsplitOnce_eq_some.1 hr
      refine if_pos (List.count_pos_iff.1 ?_)
      rw [List.count_append, List.count_cons_self, List.count_eq_zero_of_not_mem htail] at hcolons
      omega

theorem split_of_reads {address h : Str} {defaultPort q : Nat} {ports : Ports}
    (hwhite : ∀ c ∈ address, isWhitespace c = false) (hr : Reads rust defaultPort ports address h q) :
    split address defaultPort ports = .ok (h, q) := by
  rw [split_iff_reads, trim_eq_self hwhite]
  exact hr

/-- What is written of a host and a port is read back as them. A number under 100 is a display where it may be one. -/
theorem split_written (defaultPort : Nat) (ports : Ports) :
    (∀ address h q, split address defaultPort ports = .ok (h, q) ↔ Reads rust defaultPort ports (trim address) h q) ∧
      (∀ host, Host host → split host defaultPort ports = .ok (host, defaultPort) ∧
        ∀ t n, Digits t n →
          (0 < portOf ports n → n ≤ 65535 → split (host ++ ':' :: t) defaultPort ports = .ok (host, portOf ports n)) ∧
          (ports = .display → 0 < n → n ≤ 65535 → split (host ++ ':' :: ':' :: t) defaultPort ports = .ok (host, n))) ∧
      (∀ v, Literal v → split ('[' :: (v ++ [']'])) defaultPort ports = .ok (v, defaultPort) ∧
        ∀ t n, Digits t n → 0 < portOf ports n → n ≤ 65535 →
          split ('[' :: (v ++ ']' :: ':' :: t)) defaultPort ports = .ok (v, portOf ports n)) ∧
      (∀ address, 2 ≤ unbracketed false (trim address) → ¬IsDoubled ports (trim address) →
        ∃ e, split address defaultPort ports = .error e ∧
          ((trim address).head? ≠ some '[' → e = bracketed (trim address) defaultPort)) ∧
      ∀ address h q, split address defaultPort ports = .ok (h, q) → q = defaultPort ∨ 0 < q ∧ q ≤ 65535 := by
  refine ⟨fun address h q => split_iff_reads, fun host hh => ⟨?_, fun t n ht => ⟨fun hpos hmax => ?_, fun hp hpos hmax => ?_⟩⟩,
    fun v hv => ⟨?_, fun t n ht hpos hmax => ?_⟩, fun address hcolons hdoubled => ?_,
    fun address h q hs => (split_iff_reads.1 hs).port⟩
  · exact split_of_reads hh.white (.name hh.bracket hh.1 hh.colon)
  · refine split_of_reads ?_ (.single hh.bracket hh.1 hh.colon ht.colon (number_of_digits ht hpos hmax))
    simpa [or_imp, forall_and] using ⟨hh.white, by decide, ht.white⟩
  · have hnum : Number rust .plain t n := number_of_digits ht (show 0 < portOf .plain n from hpos) hmax
    refine split_of_reads ?_ (.doubled hp hh.bracket hh.1 hh.colon ht.colon hnum)
    simpa [or_imp, forall_and] using ⟨hh.white, by decide, ht.white⟩
  · have hwhite : ∀ c ∈ v, isWhitespace c = false := fun c hc => (hv.2 c hc).2
    have hinner : rust.inner v = v := trim_eq_self hwhite
    have hr : Reads rust defaultPort ports ('[' :: (v ++ [']'])) (rust.inner v) defaultPort :=
      .literal hv.close (hinner.symm ▸ hv.1) rfl
    rw [hinner] at hr
    refine split_of_reads ?_ hr
    simpa [or_imp, forall_and] using ⟨by decide, hwhite, by decide⟩
  · have hwhite : ∀ c ∈ v, isWhitespace c = false := fun c hc => (hv.2 c hc).2
    have hinner : rust.inner v = v := trim_eq_self hwhite
    have htail : rust.inner (':' :: t) = ':' :: t := trim_eq_self (by simpa using ⟨by decide, ht.white⟩)
    have hr : Reads rust defaultPort ports ('[' :: (v ++ ']' :: ':' :: t)) (rust.inner v) (portOf ports n) :=
      .literalPort hv.close (hinner.symm ▸ hv.1) htail (number_of_digits ht hpos hmax)
    rw [hinner] at hr
    refine split_of_reads ?_ hr
    simpa [or_imp, forall_and] using ⟨by decide, hwhite, by decide, by decide, ht.white⟩
  · cases hs : split address defaultPort ports with
    | ok r =>
      rcases (split_iff_reads.1 hs).unbracketed_le with hle | hd
      · omega
      · exact absurd hd hdoubled
    | error e =>
      refine ⟨e, rfl, fun hhead => ?_⟩
      have hcount := unbracketed_le_count false (trim address)
      rw [split_bracketed hhead (by omega) hdoubled] at hs
      exact (Except.error.inj hs).symm

theorem host_desk : Host "desk".toList := ⟨by decide, by simp [isWhitespace]⟩

theorem split_written_desk :
    split ("desk".toList ++ ':' :: (5901).repr.toList) 5900 .display = .ok ("desk".toList, 5901) ∧
      split ("desk".toList ++ ':' :: ':' :: (1).repr.toList) 5900 .display = .ok ("desk".toList, 1) ∧
      split ('[' :: ("::1".toList ++ ']' :: ':' :: (2).repr.toList)) 5900 .display = .ok ("::1".toList, 5902) ∧
      (∃ e, split "::1:1".toList 5900 .display = .error e ∧
        ((trim "::1:1".toList).head? ≠ some '[' → e = bracketed (trim "::1:1".toList) 5900)) ∧
      ((0 : Nat) = 0 ∨ 0 < 0 ∧ 0 ≤ 65535) := by
  have hliteral : Literal "::1".toList := ⟨by decide, by simp [isWhitespace]⟩
  refine ⟨(((split_written 5900 .display).2.1 _ host_desk).2 _ 5901 (digits_repr 5901)).1 (by decide) (by decide),
    (((split_written 5900 .display).2.1 _ host_desk).2 _ 1 (digits_repr 1)).2 rfl (by decide) (by decide),
    ((split_written 5900 .display).2.2.1 _ hliteral).2 _ 2 (digits_repr 2) (by decide) (by decide),
    (split_written 5900 .display).2.2.2.1 _ (by decide) ?_, (split_written 0 .plain).2.2.2.2 "desk".toList "desk".toList 0 rfl⟩
  rintro ⟨host, tail, -, heq, hne, -, hhost, -⟩
  cases host with
  | nil => exact hne rfl
  | cons c host => exact hhost ((List.cons.inj (show ':' :: _ = c :: _ from heq)).1 ▸ List.mem_cons_self)

/-- Port 1 after one colon is display 1, and a default of no port is handed back. -/
theorem split_display_one : Host "desk".toList ∧ split "desk:1".toList 5900 .display = .ok ("desk".toList, 5901) ∧
    split "desk".toList 0 .plain = .ok ("desk".toList, 0) :=
  ⟨host_desk, rfl, rfl⟩

end Vento.Runtime.Address
