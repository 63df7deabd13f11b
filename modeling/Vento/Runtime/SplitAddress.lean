import Vento.Runtime.Reads
/-!
# The address rule in C

`splitAddress` of `freerdp_session.c` and of `libvnc_session.c`, beside `split`. They read an address as `c` does, with
blanks taken off around it, so they agree with `split` on what is refused by both, and else on what is plain
(`Plain`): what has no more around its parts than every one of them allows.
-/

namespace Vento.Runtime.Address

open Vento.Lib Vento.Lib.Str

/-- What is left where `address` ends in blanks, or begins with some. -/
def isBlank (c : Char) : Bool := c == ' ' || c == '\t'

/-- A number under 100 is a display's, where it may be one. -/
def port (ports : Ports) (n : Int) : Int := if ports = .display ∧ 0 ≤ n ∧ n < 100 then 5900 + n else n

/-- The end of both: the host, and the number after it if one is written. -/
def named (l : Long) (ports : Ports) (address host : Str) (written : Option Str) (defaultPort : Nat) : Except Str (Str × Nat) :=
  if host = [] then .error "No host in address".toList
  else
    match written with
    | none => .ok (host, defaultPort)
    | some tail =>
      match strtol l tail with
      | some (n, []) =>
        if port ports n ≤ 0 ∨ 65535 < port ports n then .error (address ++ " does not end in a port number".toList)
        else .ok (host, (port ports n).toNat)
      | _ => .error (address ++ " does not end in a port number".toList)

/-- The end of both where the host is in brackets: `after` is what follows them. -/
def closed (l : Long) (ports : Ports) (address host after : Str) (defaultPort : Nat) : Except Str (Str × Nat) :=
  match after with
  | ':' :: tail => named l ports address host (some tail) defaultPort
  | [] => named l ports address host none defaultPort
  | _ => .error (address ++ " has junk after closing bracket".toList)

namespace Freerdp

/-- Whether FreeRDP would take `host` as something other than a name or an address. -/
def specialHost (host : Str) : Bool := host.head? == some '/' || host.head? == some '|' || "vsock://".toList.isPrefixOf host

def splitAddress (l : Long) (address : Str) (defaultPort : Nat) : Except Str (Str × Nat) :=
  let address := trimMatches isBlank address
  if address = [] ∨ (address.head? = some ':' ∧ ':' ∉ address.tail) then .error "No host in address".toList
  else if specialHost address then .error (address ++ " is not a host name or IP address".toList)
  else
    match address with
    | '[' :: rest =>
      match splitOnce [']'] rest with
      | none => .error (address ++ " missing closing bracket".toList)
      | some (host, after) =>
        if specialHost rest then .error (address ++ " is not a host name or IP address".toList)
        else closed l .plain address host after defaultPort
    | _ =>
      if splitOnce [':'] address ≠ rsplitOnce ':' address then
        .error ("IPv6 addresses must be bracketed, like [::1]:3389, not ".toList ++ address)
      else
        match splitOnce [':'] address with
        | some (host, tail) => named l .plain address host (some tail) defaultPort
        | none => named l .plain address address none defaultPort

end Freerdp

namespace Libvnc

/-- The last colon is not the first one, nor does it follow it directly. -/
def bareLiteral (address : Str) : Bool :=
  match splitOnce [':'] address, rsplitOnce ':' address with
  | some (first, _), some (last, _) => first.length + 1 < last.length
  | _, _ => false

def splitAddress (l : Long) (address : Str) (defaultPort : Nat) : Except Str (Str × Nat) :=
  let address := trimMatches isBlank address
  if address = [] ∨ address.head? = some ':' then .error "No host in address".toList
  else
    match address with
    | '[' :: rest =>
      match splitOnce [']'] rest with
      | none => .error (address ++ " missing closing bracket".toList)
      | some (host, after) => closed l .display address host after defaultPort
    | _ =>
      if bareLiteral address then .error ("IPv6 addresses must be bracketed, like [::1]:5900, not ".toList ++ address)
      else
        match rsplitOnce ':' address with
        | some (host, tail) =>
          -- After `host::` the number is a port.
          if host.getLast? = some ':' then named l .plain address host.dropLast (some tail) defaultPort
          else named l .display address host (some tail) defaultPort
        | none => named l .display address address none defaultPort

end Libvnc

example : Libvnc.splitAddress .bits64 "desk:: 5901 ".toList 5900 = .ok ("desk".toList, 5901) := by rfl

/-! ## What they read -/

/-- Nothing but a number's own leading space and sign. -/
def c : Leniency := ⟨id, isSpace, true⟩

theorem max_lt (l : Long) : 65535 < l.max := by cases l <;> decide

theorem port_natCast (ports : Ports) (n : Nat) : port ports n = (portOf ports n : Int) := by
  unfold port portOf
  by_cases h : ports = .display ∧ n < 100
  · rw [if_pos h, if_pos ⟨h.1, by omega, by omega⟩]
    omega
  · rw [if_neg h, if_neg fun h' => h ⟨h'.1, by omega⟩]

/-- What a numeral that is in range comes to. -/
theorem clamp_signed {l : Long} {neg : Bool} {n : Nat} (hneg : neg = true → n = 0) (hn : n ≤ l.max) :
    l.clamp (if neg then -(n : Int) else n) = n := by
  cases neg with
  | true =>
    obtain rfl := hneg rfl
    unfold Long.clamp
    simp only [if_true]
    omega
  | false =>
    unfold Long.clamp
    simp only [Bool.false_eq_true, if_false]
    omega

/-- A number in range has no minus sign before it, but before zero. -/
theorem signed_of_range {l : Long} {ports : Ports} {neg : Bool} {n : Nat}
    (h : ¬(port ports (l.clamp (if neg then -(n : Int) else n)) ≤ 0 ∨ 65535 < port ports (l.clamp (if neg then -(n : Int) else n)))) :
    (neg = true → n = 0) ∧ n ≤ l.max := by
  have hmax := max_lt l
  have hid : ∀ v : Int, v < 0 ∨ 100 ≤ v → port ports v = v := by
    intro v hv
    exact if_neg fun hcond => by omega
  cases neg with
  | true =>
    simp only [if_true] at h
    have hn : n = 0 := by
      by_contra hn
      have hclamp : l.clamp (-(n : Int)) < 0 := by
        unfold Long.clamp
        omega
      rw [hid _ (.inl hclamp)] at h
      omega
    exact ⟨fun _ => hn, by omega⟩
  | false =>
    simp only [Bool.false_eq_true, if_false] at h
    refine ⟨fun hneg => absurd hneg Bool.false_ne_true, ?_⟩
    by_contra hn
    have hclamp : l.clamp n = l.max := by
      unfold Long.clamp
      omega
    rw [hclamp, hid _ (.inr (by omega))] at h
    omega

/-- A number in range is the one that is written. -/
theorem strtol_port {l : Long} {tail : Str} {ports : Ports} {q : Nat} :
    (∃ n, strtol l tail = some (n, []) ∧ ¬(port ports n ≤ 0 ∨ 65535 < port ports n) ∧ (port ports n).toNat = q) ↔
      Number c ports tail q := by
  have hmax := max_lt l
  constructor
  · rintro ⟨v, hv, hrange, rfl⟩
    obtain ⟨neg, n, hnum, rfl⟩ := strtol_eq_some.1 hv
    obtain ⟨hneg, hn⟩ := signed_of_range hrange
    rw [clamp_signed hneg hn, port_natCast] at hrange ⊢
    exact ⟨neg, n, hnum, fun h => ⟨rfl, hneg h⟩, by omega, by omega, by omega⟩
  · rintro ⟨neg, n, hnum, hneg, rfl, hpos, hle⟩
    refine ⟨_, strtol_eq_some.2 ⟨neg, n, hnum, rfl⟩, ?_⟩
    have hn : n ≤ l.max := by
      unfold portOf at hle
      split at hle <;> omega
    rw [clamp_signed (fun h => (hneg h).2) hn, port_natCast]
    omega

theorem named_none {l : Long} {ports : Ports} {address host h : Str} {d q : Nat} :
    named l ports address host none d = .ok (h, q) ↔ host ≠ [] ∧ host = h ∧ d = q := by
  unfold named
  split
  · next hnil => simp [hnil]
  · next hne => simp [hne]

theorem named_some {l : Long} {ports : Ports} {address host tail h : Str} {d q : Nat} :
    named l ports address host (some tail) d = .ok (h, q) ↔ host ≠ [] ∧ host = h ∧ Number c ports tail q := by
  rw [← strtol_port (l := l)]
  unfold named
  split
  · next hnil => simp [hnil]
  · next hne =>
    dsimp only
    constructor
    · intro hs
      split at hs
      · next n hn =>
        split at hs
        · cases hs
        · next hrange =>
          cases hs
          exact ⟨hne, rfl, n, hn, hrange, rfl⟩
      · cases hs
    · rintro ⟨-, rfl, n, hn, hrange, rfl⟩
      simp only [hn]
      rw [if_neg hrange]

/-- An address with a bracket first, by what is in it and what follows it. -/
theorem reads_of_bracketed {l : Leniency} {ports : Ports} {host after h : Str} {d q : Nat} (hhost : ']' ∉ host)
    (hr : Reads l d ports ('[' :: (host ++ ']' :: after)) h q) :
    l.inner host ≠ [] ∧ l.inner host = h ∧
      ((l.inner after = [] ∧ d = q) ∨ ∃ tail, l.inner after = ':' :: tail ∧ Number l ports tail q) := by
  generalize hy : '[' :: (host ++ ']' :: after) = y at hr
  have hsplit : ∀ host' after' : Str, ']' ∉ host' → y = '[' :: (host' ++ ']' :: after') → host' = host ∧ after' = after := by
    intro host' after' hhost' heq
    have hsome := splitOnce_singleton.2 ⟨(List.cons.inj (hy.trans heq)).2, hhost'⟩
    rw [splitOnce_singleton.2 ⟨rfl, hhost⟩] at hsome
    cases hsome
    exact ⟨rfl, rfl⟩
  cases hr with
  | name hbracket hne hcolon => exact absurd (by rw [← hy]; rfl) hbracket
  | single hbracket hne hcolon htail hnum => exact absurd (bracket_of_append hne hy.symm) hbracket
  | doubled hports hbracket hne hcolon htail hnum => exact absurd (bracket_of_append hne hy.symm) hbracket
  | literal hhost' hne hrest =>
    obtain ⟨rfl, rfl⟩ := hsplit _ _ hhost' rfl
    exact ⟨hne, rfl, .inl ⟨hrest, rfl⟩⟩
  | literalPort hhost' hne hrest hnum =>
    obtain ⟨rfl, rfl⟩ := hsplit _ _ hhost' rfl
    exact ⟨hne, rfl, .inr ⟨_, hrest, hnum⟩⟩

theorem closed_ok {l : Long} {ports : Ports} {address host after h : Str} {d q : Nat} (hhost : ']' ∉ host) :
    closed l ports address host after d = .ok (h, q) ↔ Reads c d ports ('[' :: (host ++ ']' :: after)) h q := by
  unfold closed
  constructor
  · intro hs
    split at hs
    · next tail =>
      obtain ⟨hne, rfl, hnum⟩ := named_some.1 hs
      exact .literalPort (l := c) hhost hne rfl hnum
    · obtain ⟨hne, rfl, rfl⟩ := named_none.1 hs
      exact .literal (l := c) hhost hne rfl
    · cases hs
  · intro hr
    obtain ⟨hne, rfl, ⟨hafter, rfl⟩ | ⟨tail, hafter, hnum⟩⟩ := reads_of_bracketed hhost hr
    · cases hafter
      exact named_none.2 ⟨hne, rfl, rfl⟩
    · cases hafter
      exact named_some.2 ⟨hne, rfl, hnum⟩

theorem error_ne_ok {e : Str} {r : Str × Nat} : Except.error e ≠ .ok r := by
  intro h
  cases h

/-- A bracket is closed. -/
theorem close_of_reads {l : Leniency} {d q : Nat} {ports : Ports} {rest h : Str} (hr : Reads l d ports ('[' :: rest) h q) :
    ']' ∈ rest := by
  generalize hy : '[' :: rest = y at hr
  cases hr with
  | name hbracket => exact absurd (by rw [← hy]; rfl) hbracket
  | single hbracket hne => exact absurd (bracket_of_append hne hy.symm) hbracket
  | doubled hports hbracket hne => exact absurd (bracket_of_append hne hy.symm) hbracket
  | literal =>
    cases hy
    simp
  | literalPort =>
    cases hy
    simp

theorem head_of_append_ne {a t : Str} {x : Char} (hne : a ≠ []) (h : (a ++ t).head? ≠ some x) : a.head? ≠ some x := by
  cases a with
  | nil => exact absurd rfl hne
  | cons e a => exact h

/-- An address without a bracket first, by its colons. -/
theorem reads_of_unbracketed {l : Leniency} {d q : Nat} {ports : Ports} {y h : Str} (hbracket : y.head? ≠ some '[')
    (hr : Reads l d ports y h q) :
    (y ≠ [] ∧ ':' ∉ y ∧ h = y ∧ q = d) ∨ (∃ tail, y = h ++ ':' :: tail ∧ h ≠ [] ∧ ':' ∉ h ∧ ':' ∉ tail ∧ Number l ports tail q) ∨
      ∃ tail, ports = .display ∧ y = h ++ ':' :: ':' :: tail ∧ h ≠ [] ∧ ':' ∉ h ∧ ':' ∉ tail ∧ Number l .plain tail q := by
  cases hr with
  | name _ hne hcolon => exact .inl ⟨hne, hcolon, rfl, rfl⟩
  | single _ hne hcolon htail hnum => exact .inr (.inl ⟨_, rfl, hne, hcolon, htail, hnum⟩)
  | doubled hports _ hne hcolon htail hnum => exact .inr (.inr ⟨_, hports, rfl, hne, hcolon, htail, hnum⟩)
  | literal => exact absurd rfl hbracket
  | literalPort => exact absurd rfl hbracket

namespace Freerdp

/-- Where FreeRDP would dial something other than a name or an address. -/
def Special (address : Str) : Prop :=
  specialHost (trimMatches isBlank address) = true ∨
    (trimMatches isBlank address).head? = some '[' ∧ specialHost (trimMatches isBlank address).tail = true

instance (address : Str) : Decidable (Special address) := inferInstanceAs (Decidable (_ ∨ _))

theorem splitAddress_ok {l : Long} {address h : Str} {d q : Nat} (hspecial : ¬Special address) :
    splitAddress l address d = .ok (h, q) ↔ Reads c d .plain (trimMatches isBlank address) h q := by
  unfold Special at hspecial
  unfold splitAddress
  dsimp only
  generalize trimMatches isBlank address = y at hspecial ⊢
  rw [not_or] at hspecial
  by_cases hempty : y = [] ∨ (y.head? = some ':' ∧ ':' ∉ y.tail)
  · rw [if_pos hempty]
    refine iff_of_false error_ne_ok fun hr => ?_
    have hbracket : y.head? ≠ some '[' := by
      rcases hempty with rfl | ⟨hhead, -⟩
      · simp
      · simp [hhead]
    rcases reads_of_unbracketed hbracket hr with ⟨hne, hcolon, -⟩ | ⟨tail, rfl, hne, hcolon, -⟩ | ⟨tail, hports, -⟩
    · rcases hempty with rfl | ⟨hhead, -⟩
      · exact hne rfl
      · exact hcolon (List.mem_of_mem_head? hhead)
    · rcases hempty with hnil | ⟨hhead, -⟩
      · exact List.append_ne_nil_of_left_ne_nil hne _ hnil
      · cases h with
        | nil => exact hne rfl
        | cons e h =>
          cases hhead
          exact hcolon List.mem_cons_self
    · cases hports
  · rw [if_neg hempty, if_neg hspecial.1]
    split
    · next rest =>
      have hrest : specialHost rest ≠ true := fun htrue => hspecial.2 ⟨rfl, htrue⟩
      split
      · next hnone =>
        exact iff_of_false error_ne_ok fun hr => splitOnce_eq_none.1 hnone (close_of_reads hr)
      · next host after hsplit =>
        obtain ⟨rfl, hhost⟩ := splitOnce_singleton.1 hsplit
        rw [if_neg hrest]
        exact closed_ok hhost
    · next hnot =>
      have hbracket : y.head? ≠ some '[' := by
        intro hhead
        obtain ⟨rest, rfl⟩ := List.head?_eq_some_iff.1 hhead
        exact hnot rest rfl
      split
      · next hne =>
        refine iff_of_false error_ne_ok fun hr => ?_
        rcases reads_of_unbracketed hbracket hr with ⟨-, hcolon, -⟩ | ⟨tail, rfl, -, hcolon, htail, -⟩ | ⟨tail, hports, -⟩
        · rw [splitOnce_eq_none.2 hcolon, rsplitOnce_eq_none.2 hcolon] at hne
          exact hne rfl
        · rw [splitOnce_singleton.2 ⟨rfl, hcolon⟩, rsplitOnce_eq_some.2 ⟨rfl, htail⟩] at hne
          exact hne rfl
        · cases hports
      · next heq =>
        rw [ne_eq, not_not] at heq
        split
        · next host tail hsplit =>
          obtain ⟨rfl, hcolon⟩ := splitOnce_singleton.1 hsplit
          obtain ⟨-, htail⟩ := rsplitOnce_eq_some.1 (heq.symm.trans hsplit)
          rw [named_some]
          constructor
          · rintro ⟨hne, rfl, hnum⟩
            exact .single (head_of_append_ne hne hbracket) hne hcolon htail hnum
          · intro hr
            rcases reads_of_unbracketed hbracket hr with ⟨-, hcolon', -⟩ | ⟨tail', hsame, hne, hcolon', htail', hnum⟩ | ⟨_, hports, -⟩
            · exact absurd (by simp) hcolon'
            · have hsome := splitOnce_singleton.2 ⟨hsame, hcolon'⟩
              rw [hsplit] at hsome
              cases hsome
              exact ⟨hne, rfl, hnum⟩
            · cases hports
        · next hnone =>
          have hcolon := splitOnce_eq_none.1 hnone
          rw [named_none]
          constructor
          · rintro ⟨hne, rfl, rfl⟩
            exact .name hbracket hne hcolon
          · intro hr
            rcases reads_of_unbracketed hbracket hr with ⟨hne, -, rfl, rfl⟩ | ⟨tail', rfl, -⟩ | ⟨_, hports, -⟩
            · exact ⟨hne, rfl, rfl⟩
            · exact absurd (by simp) hcolon
            · cases hports

end Freerdp

namespace Libvnc

/-- The first colon is the last, or stands right before it. -/
theorem colons_of_not_bare {host tail : Str} (htail : ':' ∉ tail) (h : bareLiteral (host ++ ':' :: tail) = false) :
    ':' ∉ host ∨ ∃ first, host = first ++ [':'] ∧ ':' ∉ first := by
  by_cases hcolon : ':' ∈ host
  · refine .inr ?_
    cases hs : splitOnce [':'] host with
    | none => exact absurd hcolon (splitOnce_eq_none.1 hs)
    | some p =>
    obtain ⟨first, rest⟩ := p
    obtain ⟨rfl, hfirst⟩ := splitOnce_singleton.1 hs
    have hsplit : splitOnce [':'] (first ++ ':' :: rest ++ ':' :: tail) = some (first, rest ++ ':' :: tail) :=
      splitOnce_singleton.2 ⟨by simp, hfirst⟩
    unfold bareLiteral at h
    rw [hsplit, rsplitOnce_eq_some.2 ⟨rfl, htail⟩] at h
    simp only [List.length_append, List.length_cons, decide_eq_false_iff_not] at h
    have hnil : rest = [] := List.eq_nil_of_length_eq_zero (by omega)
    subst hnil
    exact ⟨first, rfl, hfirst⟩
  · exact .inl hcolon

theorem splitAddress_ok {l : Long} {address h : Str} {d q : Nat} :
    splitAddress l address d = .ok (h, q) ↔ Reads c d .display (trimMatches isBlank address) h q := by
  unfold splitAddress
  dsimp only
  generalize trimMatches isBlank address = y
  by_cases hempty : y = [] ∨ y.head? = some ':'
  · rw [if_pos hempty]
    refine iff_of_false error_ne_ok fun hr => ?_
    have hbracket : y.head? ≠ some '[' := by
      rcases hempty with rfl | hhead
      · simp
      · simp [hhead]
    have hhost : ∀ t, y = h ++ t → h ≠ [] → ':' ∉ h → False := by
      rintro t rfl hne hcolon
      rcases hempty with hnil | hhead
      · exact List.append_ne_nil_of_left_ne_nil hne _ hnil
      · cases h with
        | nil => exact hne rfl
        | cons e h =>
          cases hhead
          exact hcolon List.mem_cons_self
    rcases reads_of_unbracketed hbracket hr with ⟨hne, hcolon, rfl, -⟩ | ⟨tail, heq, hne, hcolon, -⟩ | ⟨tail, -, heq, hne, hcolon, -⟩
    · exact hhost [] (by simp) hne hcolon
    · exact hhost _ heq hne hcolon
    · exact hhost _ heq hne hcolon
  · rw [if_neg hempty]
    split
    · next rest =>
      split
      · next hnone =>
        exact iff_of_false error_ne_ok fun hr => splitOnce_eq_none.1 hnone (close_of_reads hr)
      · next host after hsplit =>
        obtain ⟨rfl, hhost⟩ := splitOnce_singleton.1 hsplit
        exact closed_ok hhost
    · next hnot =>
      have hbracket : y.head? ≠ some '[' := by
        intro hhead
        obtain ⟨rest, rfl⟩ := List.head?_eq_some_iff.1 hhead
        exact hnot rest rfl
      split
      · next hbare =>
        refine iff_of_false error_ne_ok fun hr => ?_
        rcases reads_of_unbracketed hbracket hr with ⟨-, hcolon, -⟩ | ⟨tail, rfl, -, hcolon, htail, -⟩ |
          ⟨tail, -, rfl, -, hcolon, htail, -⟩
        · rw [bareLiteral, splitOnce_eq_none.2 hcolon] at hbare
          cases hbare
        · rw [bareLiteral, splitOnce_singleton.2 ⟨rfl, hcolon⟩, rsplitOnce_eq_some.2 ⟨rfl, htail⟩] at hbare
          simp only [decide_eq_true_eq] at hbare
          omega
        · have hlast : rsplitOnce ':' (h ++ ':' :: ':' :: tail) = some (h ++ [':'], tail) :=
            rsplitOnce_eq_some.2 ⟨by simp, htail⟩
          rw [bareLiteral, splitOnce_singleton.2 ⟨rfl, hcolon⟩, hlast] at hbare
          simp at hbare
      · next hbare =>
        rw [Bool.not_eq_true] at hbare
        split
        · next host tail hsplit =>
          obtain ⟨rfl, htail⟩ := rsplitOnce_eq_some.1 hsplit
          split
          · next hlast =>
            obtain ⟨first, rfl⟩ := List.getLast?_eq_some_iff.1 hlast
            rw [List.dropLast_concat, named_some]
            have hcolon : ':' ∉ first := by
              rcases colons_of_not_bare htail hbare with hno | ⟨first', heq, hfirst⟩
              · exact absurd (by simp) hno
              · rwa [List.append_cancel_right heq]
            constructor
            · rintro ⟨hne, rfl, hnum⟩
              rw [List.append_assoc]
              rw [List.append_assoc] at hbracket
              exact .doubled rfl (head_of_append_ne hne hbracket) hne hcolon htail hnum
            · intro hr
              rcases reads_of_unbracketed hbracket hr with ⟨-, hcolon', -⟩ | ⟨tail', heq, -, hcolon', htail', -⟩ |
                ⟨tail', -, heq, hne, hcolon', htail', hnum⟩
              · exact absurd (by simp) hcolon'
              · have hsome := rsplitOnce_eq_some.2 ⟨heq, htail'⟩
                rw [hsplit] at hsome
                cases hsome
                exact absurd (by simp) hcolon'
              · have hsome : rsplitOnce ':' (first ++ [':'] ++ ':' :: tail) = some (h ++ [':'], tail') :=
                  rsplitOnce_eq_some.2 ⟨by rw [heq]; simp, htail'⟩
                rw [hsplit] at hsome
                simp only [Option.some.injEq, Prod.mk.injEq] at hsome
                obtain ⟨hhost, rfl⟩ := hsome
                rw [List.append_cancel_right hhost]
                exact ⟨hne, rfl, hnum⟩
          · next hlast =>
            rw [named_some]
            have hcolon : ':' ∉ host := by
              rcases colons_of_not_bare htail hbare with hno | ⟨first', rfl, -⟩
              · exact hno
              · simp at hlast
            constructor
            · rintro ⟨hne, rfl, hnum⟩
              exact .single (head_of_append_ne hne hbracket) hne hcolon htail hnum
            · intro hr
              rcases reads_of_unbracketed hbracket hr with ⟨-, hcolon', -⟩ | ⟨tail', heq, hne, hcolon', htail', hnum⟩ |
                ⟨tail', -, heq, hne, hcolon', htail', -⟩
              · exact absurd (by simp) hcolon'
              · have hsome := rsplitOnce_eq_some.2 ⟨heq, htail'⟩
                rw [hsplit] at hsome
                cases hsome
                exact ⟨hne, rfl, hnum⟩
              · have hsome : rsplitOnce ':' (host ++ ':' :: tail) = some (h ++ [':'], tail') :=
                  rsplitOnce_eq_some.2 ⟨by rw [heq]; simp, htail'⟩
                rw [hsplit] at hsome
                simp only [Option.some.injEq, Prod.mk.injEq] at hsome
                rw [hsome.1] at hcolon
                exact absurd (by simp) hcolon
        · next hnone =>
          have hcolon := rsplitOnce_eq_none.1 hnone
          rw [named_none]
          constructor
          · rintro ⟨hne, rfl, rfl⟩
            exact .name hbracket hne hcolon
          · intro hr
            rcases reads_of_unbracketed hbracket hr with ⟨hne, -, rfl, rfl⟩ | ⟨tail', rfl, -⟩ | ⟨tail', -, rfl, -⟩
            · exact ⟨hne, rfl, rfl⟩
            · exact absurd (by simp) hcolon
            · exact absurd (by simp) hcolon

end Libvnc

/-! ## Where they agree -/

/-- What is no lenience: the space that every one of them has before a number. -/
def strict : Leniency := ⟨id, isSpace, false⟩

/-- An address that is read strictly, with no other whitespace around it, nor around a host in brackets. -/
def Plain (d : Nat) (ports : Ports) (y h : Str) (q : Nat) : Prop :=
  Reads strict d ports y h q ∧ trim y = y ∧ (y.head? = some '[' → trim h = h)

/-- With some lenience, `address` names a host and a port. -/
def Named (d : Nat) (ports : Ports) (address : Str) : Prop :=
  ∃ h q, Reads c d ports (trimMatches isBlank address) h q ∨ Reads rust d ports (trim address) h q

theorem isWhitespace_of_isBlank {x : Char} (h : isBlank x = true) : isWhitespace x = true := by
  simp only [isBlank, Bool.or_eq_true, beq_iff_eq] at h
  rcases h with rfl | rfl <;> decide

theorem isWhitespace_of_isDigit {x : Char} (h : x.isDigit = true) : isWhitespace x = false := leads_isWhitespace.digit x h

/-- More is trimmed of what less was trimmed of. -/
theorem trim_blanks (s : Str) : trim (trimMatches isBlank s) = trim s := by
  obtain ⟨w, w', hs, hw, hw'⟩ := exists_trimMatches isBlank s
  generalize trimMatches isBlank s = y at hs ⊢
  obtain ⟨v, v', hy, hv, hv'⟩ := exists_trimMatches isWhitespace y
  have hbare := bare_trimMatches isWhitespace y
  have hs' : s = (w ++ v) ++ (trimMatches isWhitespace y ++ (v' ++ w')) := by
    conv_lhs => rw [hs, hy]
    simp
  rw [trim, trim, hs', trimMatches_eq hbare]
  · intro x hx
    rcases List.mem_append.1 hx with hx | hx
    · exact isWhitespace_of_isBlank (hw x hx)
    · exact hv x hx
  · intro x hx
    rcases List.mem_append.1 hx with hx | hx
    · exact hv' x hx
    · exact isWhitespace_of_isBlank (hw' x hx)

theorem Numeral.lenient {lead lead' : Char → Bool} {s : Str} {neg : Bool} {n : Nat} (hlead : ∀ x, lead x = true → lead' x = true)
    (h : Numeral lead s neg n) : Numeral lead' s neg n := by
  obtain ⟨w, sign, digits, hs, hw, hsign, hne, hdigits, hn⟩ := h
  exact ⟨w, sign, digits, hs, fun x hx => hlead x (hw x hx), hsign, hne, hdigits, hn⟩

theorem Number.of_strict {l : Leniency} {ports : Ports} {tail : Str} {q : Nat} (hlead : ∀ x, isSpace x = true → l.lead x = true)
    (h : Number strict ports tail q) : Number l ports tail q := by
  obtain ⟨neg, n, hnum, hneg, hq, hpos, hle⟩ := h
  refine ⟨neg, n, Numeral.lenient hlead hnum, fun htrue => ?_, hq, hpos, hle⟩
  cases (hneg htrue).1

/-- A number with a minus sign is not one to all. -/
theorem Number.strict_of {ports ports' : Ports} {tail : Str} {q q' : Nat} (h : Number c ports tail q)
    (h' : Number rust ports' tail q') : Number strict ports tail q := by
  obtain ⟨neg, n, hnum, -, hq, hpos, hle⟩ := h
  obtain ⟨neg', n', hnum', hneg', -⟩ := h'
  have hminus' : '-' ∉ tail := by
    obtain ⟨w, sign, digits, rfl, hw, hsign, -, hdigits, -⟩ := hnum'
    intro hmem
    rw [List.mem_append, List.mem_append] at hmem
    rcases hmem with hmem | hmem | hmem
    · exact absurd (hw _ hmem) (by decide)
    · rcases hsign with ⟨-, rfl | rfl⟩ | ⟨htrue, -⟩
      · cases hmem
      · exact absurd (List.mem_singleton.1 hmem) (by decide)
      · cases (hneg' htrue).1
    · exact absurd (hdigits _ hmem) (by decide)
  refine ⟨neg, n, hnum, fun htrue => ?_, hq, hpos, hle⟩
  obtain ⟨w, sign, digits, rfl, -, hsign, -⟩ := hnum
  rcases hsign with ⟨hfalse, -⟩ | ⟨-, rfl⟩
  · rw [htrue] at hfalse
    cases hfalse
  · exact absurd (by simp) hminus'

theorem Number.last {l : Leniency} {ports : Ports} {tail : Str} {q : Nat} (h : Number l ports tail q) :
    ∃ x, tail.getLast? = some x ∧ isWhitespace x = false := by
  obtain ⟨neg, n, hnum, -⟩ := h
  obtain ⟨x, hx, hdigit⟩ := Numeral.last hnum
  exact ⟨x, hx, isWhitespace_of_isDigit hdigit⟩

/-- A text is bare between an end that is and another. -/
theorem bare_append {p : Char → Bool} {a b : Str} (hne : a ≠ []) (ha : ∀ x ∈ a.head?, p x = false)
    (hb : ∃ x, b.getLast? = some x ∧ p x = false) : Bare p (a ++ b) := by
  obtain ⟨x, hx, hp⟩ := hb
  have hbne : b ≠ [] := by
    rintro rfl
    cases hx
  constructor
  · intro y hy
    cases a with
    | nil => exact absurd rfl hne
    | cons e a => exact ha y hy
  · intro y hy
    rw [List.getLast?_append_of_ne_nil _ hbne, hx] at hy
    cases hy
    exact hp

/-- What is plain is read by all. -/
theorem Plain.reads {d q : Nat} {ports : Ports} {y h : Str} (hp : Plain d ports y h q) :
    Reads c d ports y h q ∧ Reads rust d ports (trim y) h q := by
  obtain ⟨hr, htrim, hhost⟩ := hp
  rw [htrim]
  have hbare : Bare isWhitespace y := htrim ▸ bare_trimMatches isWhitespace y
  have hspace : ∀ x, isSpace x = true → isWhitespace x = true := fun _ => isWhitespace_of_isSpace
  cases hr with
  | name hbracket hne hcolon => exact ⟨.name hbracket hne hcolon, .name hbracket hne hcolon⟩
  | single hbracket hne hcolon htail hnum =>
    exact ⟨.single hbracket hne hcolon htail (hnum.of_strict fun _ hx => hx), .single hbracket hne hcolon htail (hnum.of_strict hspace)⟩
  | doubled hports hbracket hne hcolon htail hnum =>
    exact ⟨.doubled hports hbracket hne hcolon htail (hnum.of_strict fun _ hx => hx),
      .doubled hports hbracket hne hcolon htail (hnum.of_strict hspace)⟩
  | @literal host rest hclose hne hrest =>
    have htrimmed : trim host = host := hhost rfl
    have hnil : trim rest = [] := by
      rw [show rest = [] from hrest]
      rfl
    refine ⟨.literal (l := c) hclose hne hrest, ?_⟩
    have hne' : trim host ≠ [] := by
      rw [htrimmed]
      exact hne
    have hrust : Reads rust d ports ('[' :: (host ++ ']' :: rest)) (trim host) d := .literal (l := rust) hclose hne' hnil
    rwa [htrimmed] at hrust
  | @literalPort host rest tail _ hclose hne hrest hnum =>
    have htrimmed : trim host = host := hhost rfl
    have hrest' : rest = ':' :: tail := hrest
    subst hrest'
    have hself : trim (':' :: tail) = ':' :: tail :=
      Bare.trimMatches_eq_self (bare_append (a := [':']) (List.cons_ne_nil _ _) (by simpa using (by decide)) hnum.last)
    refine ⟨.literalPort (l := c) hclose hne hrest (hnum.of_strict fun _ hx => hx), ?_⟩
    have hne' : trim host ≠ [] := by
      rw [htrimmed]
      exact hne
    have hrust : Reads rust d ports ('[' :: (host ++ ']' :: ':' :: tail)) (trim host) q :=
      .literalPort (l := rust) hclose hne' hself (hnum.of_strict hspace)
    rwa [htrimmed] at hrust

/-- The host that `split` reads does not begin with whitespace. -/
theorem head_of_rust {d q : Nat} {ports : Ports} {y h : Str} (hbare : Bare isWhitespace y) (hr : Reads rust d ports y h q) :
    ∀ x ∈ h.head?, isWhitespace x = false := by
  have hprefix : ∀ t, y = h ++ t → ∀ x ∈ h.head?, isWhitespace x = false := by
    rintro t rfl x hx
    refine hbare.head x ?_
    cases h with
    | nil => cases hx
    | cons e h => exact hx
  cases hr with
  | name => exact hbare.head
  | single => exact hprefix _ rfl
  | doubled => exact hprefix _ rfl
  | literal => exact (bare_trimMatches isWhitespace _).head
  | literalPort => exact (bare_trimMatches isWhitespace _).head

/-- The host is no longer than the address, and shorter if it was in brackets. -/
theorem length_of_rust {d q : Nat} {ports : Ports} {y h : Str} (hr : Reads rust d ports y h q) :
    y.head? ≠ some '[' ∨ h.length < y.length := by
  have hlen : ∀ host rest : Str, (trim host).length < ('[' :: (host ++ ']' :: rest)).length := by
    intro host rest
    have hle := (trimMatches_sublist isWhitespace host).length_le
    rw [List.length_cons, List.length_append]
    exact Nat.lt_succ_of_le (Nat.le_trans hle (Nat.le_add_right _ _))
  cases hr with
  | name hbracket => exact .inl hbracket
  | single hbracket hne => exact .inl fun h' => hbracket (by cases h with | nil => exact absurd rfl hne | cons => exact h')
  | doubled _ hbracket hne => exact .inl fun h' => hbracket (by cases h with | nil => exact absurd rfl hne | cons => exact h')
  | literal => exact .inr (hlen _ _)
  | literalPort => exact .inr (hlen _ _)

/-- What both read as the same is plain. -/
theorem plain_of_reads {d q : Nat} {ports : Ports} {y h : Str} (hc : Reads c d ports y h q)
    (hr : Reads rust d ports (trim y) h q) : Plain d ports y h q := by
  have hhead := head_of_rust (bare_trimMatches _ _) hr
  have hlt := length_of_rust hr
  have hsub := trimMatches_sublist isWhitespace y
  cases hc with
  | name hbracket hne hcolon =>
    have hnot : (trim y).head? ≠ some '[' := hlt.resolve_right (Nat.not_lt.2 hsub.length_le)
    have hcolon' : ':' ∉ trim y := fun hmem => hcolon (hsub.subset hmem)
    rcases reads_of_unbracketed hnot hr with ⟨-, -, heq, -⟩ | ⟨tail, heq, -⟩ | ⟨tail, -, heq, -⟩
    · exact ⟨.name hbracket hne hcolon, heq.symm, fun h' => absurd h' hbracket⟩
    · exact absurd (heq ▸ by simp) hcolon'
    · exact absurd (heq ▸ by simp) hcolon'
  | @single _ tail _ hbracket hne hcolon htail hnum =>
    have hself : trim (h ++ ':' :: tail) = h ++ ':' :: tail := by
      obtain ⟨x, hx, hwhite⟩ := hnum.last
      refine Bare.trimMatches_eq_self (bare_append hne hhead ⟨x, ?_, hwhite⟩)
      rw [List.getLast?_cons, hx]
      rfl
    have hbracket' : (h ++ ':' :: tail).head? ≠ some '[' := by
      cases h with
      | nil => exact absurd rfl hne
      | cons e h => exact hbracket
    rw [hself] at hr
    rcases reads_of_unbracketed hbracket' hr with ⟨-, hcolon', -⟩ | ⟨tail', heq, -, -, -, hnum'⟩ | ⟨tail', -, heq, -⟩
    · exact absurd (by simp) hcolon'
    · cases List.append_cancel_left heq
      exact ⟨.single hbracket hne hcolon htail (hnum.strict_of hnum'), hself, fun h' => absurd h' hbracket'⟩
    · cases List.append_cancel_left heq
      exact absurd List.mem_cons_self htail
  | @doubled _ tail _ hports hbracket hne hcolon htail hnum =>
    have hself : trim (h ++ ':' :: ':' :: tail) = h ++ ':' :: ':' :: tail := by
      obtain ⟨x, hx, hwhite⟩ := hnum.last
      refine Bare.trimMatches_eq_self (bare_append hne hhead ⟨x, ?_, hwhite⟩)
      rw [List.getLast?_cons, List.getLast?_cons, hx]
      rfl
    have hbracket' : (h ++ ':' :: ':' :: tail).head? ≠ some '[' := by
      cases h with
      | nil => exact absurd rfl hne
      | cons e h => exact hbracket
    rw [hself] at hr
    rcases reads_of_unbracketed hbracket' hr with ⟨-, hcolon', -⟩ | ⟨tail', heq, -, -, htail', -⟩ | ⟨tail', -, heq, -, -, -, hnum'⟩
    · exact absurd (by simp) hcolon'
    · cases List.append_cancel_left heq
      exact absurd List.mem_cons_self htail'
    · cases List.append_cancel_left heq
      exact ⟨.doubled hports hbracket hne hcolon htail (hnum.strict_of hnum'), hself, fun h' => absurd h' hbracket'⟩
  | @literal host rest hclose hne hrest =>
    have hnil : rest = [] := hrest
    subst hnil
    have hself : trim ('[' :: (host ++ [']'])) = '[' :: (host ++ [']']) :=
      Bare.trimMatches_eq_self (bare_append (a := '[' :: host) (List.cons_ne_nil _ _) (by simpa using (by decide))
        ⟨']', rfl, by decide⟩)
    rw [hself] at hr
    obtain ⟨-, htrim, -⟩ := reads_of_bracketed hclose hr
    exact ⟨.literal (l := strict) hclose hne hrest, hself, fun _ => htrim⟩
  | @literalPort host rest tail _ hclose hne hrest hnum =>
    have hcons : rest = ':' :: tail := hrest
    subst hcons
    obtain ⟨x, hx, hwhite⟩ := hnum.last
    have hself : trim ('[' :: (host ++ ']' :: ':' :: tail)) = '[' :: (host ++ ']' :: ':' :: tail) := by
      refine Bare.trimMatches_eq_self (bare_append (a := '[' :: host) (List.cons_ne_nil _ _) (by simpa using (by decide)) ⟨x, ?_, hwhite⟩)
      rw [List.getLast?_cons, List.getLast?_cons, hx]
      rfl
    have hrest' : trim (':' :: tail) = ':' :: tail :=
      Bare.trimMatches_eq_self (bare_append (a := [':']) (List.cons_ne_nil _ _) (by simpa using (by decide)) ⟨x, hx, hwhite⟩)
    rw [hself] at hr
    obtain ⟨-, htrim, ⟨hafter, -⟩ | ⟨tail', hafter, hnum'⟩⟩ := reads_of_bracketed hclose hr
    · rw [show rust.inner (':' :: tail) = _ from hrest'] at hafter
      cases hafter
    · rw [show rust.inner (':' :: tail) = _ from hrest'] at hafter
      cases hafter
      exact ⟨.literalPort (l := strict) hclose hne hrest (hnum.strict_of hnum'), hself, fun _ => htrim⟩

/-- What reads an address as `c` does agrees with `split` on it exactly if it is plain or names nothing. -/
theorem alike_iff {d : Nat} {ports : Ports} {address : Str} {r : Except Str (Str × Nat)}
    (hr : ∀ h q, r = .ok (h, q) ↔ Reads c d ports (trimMatches isBlank address) h q) :
    (∀ h q, r = .ok (h, q) ↔ split address d ports = .ok (h, q)) ↔
      (Named d ports address → ∃ h q, Plain d ports (trimMatches isBlank address) h q) := by
  constructor
  · rintro hsame ⟨h, q, hread⟩
    have hboth : Reads c d ports (trimMatches isBlank address) h q ∧ Reads rust d ports (trim address) h q := by
      rcases hread with hc | hrust
      · exact ⟨hc, split_iff_reads.1 ((hsame h q).1 ((hr h q).2 hc))⟩
      · exact ⟨(hr h q).1 ((hsame h q).2 (split_iff_reads.2 hrust)), hrust⟩
    refine ⟨h, q, plain_of_reads hboth.1 ?_⟩
    rw [trim_blanks]
    exact hboth.2
  · intro hplain h q
    have hboth : Named d ports address → ∃ p, r = .ok p ∧ split address d ports = .ok p := by
      intro hnamed
      obtain ⟨h', q', hp⟩ := hplain hnamed
      obtain ⟨hc, hrust⟩ := hp.reads
      rw [trim_blanks] at hrust
      exact ⟨(h', q'), (hr h' q').2 hc, split_iff_reads.2 hrust⟩
    constructor
    · intro hok
      obtain ⟨p, hp, hsplit⟩ := hboth ⟨h, q, .inl ((hr h q).1 hok)⟩
      rwa [hsplit, ← hp]
    · intro hok
      obtain ⟨p, hp, hsplit⟩ := hboth ⟨h, q, .inr (split_iff_reads.1 hok)⟩
      rwa [hp, ← hsplit]

/-- An address is the same host and port in C and in Rust, or refused by both, exactly if it is plain or names nothing
with any lenience. -/
theorem addresses_alike (l : Long) (address : Str) (d : Nat) :
    ((∀ h q, Libvnc.splitAddress l address d = .ok (h, q) ↔ split address d .display = .ok (h, q)) ↔
      (Named d .display address → ∃ h q, Plain d .display (trimMatches isBlank address) h q)) ∧
    (¬Freerdp.Special address →
      ((∀ h q, Freerdp.splitAddress l address d = .ok (h, q) ↔ split address d .plain = .ok (h, q)) ↔
        (Named d .plain address → ∃ h q, Plain d .plain (trimMatches isBlank address) h q))) :=
  ⟨alike_iff fun _ _ => Libvnc.splitAddress_ok, fun hspecial => alike_iff fun _ _ => Freerdp.splitAddress_ok hspecial⟩

theorem addresses_alike_desk :
    Freerdp.splitAddress .bits64 " desk:3390".toList 3389 = .ok ("desk".toList, 3390) ↔
      split " desk:3390".toList 3389 .plain = .ok ("desk".toList, 3390) := by
  refine ((addresses_alike .bits64 " desk:3390".toList 3389).2 (by decide)).2 (fun _ => ⟨"desk".toList, 3390, ?_⟩) _ _
  have hnum : Number strict .plain "3390".toList 3390 :=
    ⟨false, 3390, ⟨[], [], "3390".toList, rfl, by simp, .inl ⟨rfl, .inl rfl⟩, by decide, List.all_eq_true.1 (by decide), rfl⟩,
      by simp, rfl, by decide, by decide⟩
  have hread : Reads strict 3389 .plain ("desk".toList ++ ':' :: "3390".toList) "desk".toList 3390 :=
    .single (by decide) (by decide) (by decide) (by decide) hnum
  exact ⟨hread, rfl, by decide⟩

/-- A blank after the bracket, and whitespace within it, are for `split` alone. -/
theorem blank_after_bracket :
    ¬(∀ h q, Libvnc.splitAddress .bits64 "[::1] :5901".toList 5900 = .ok (h, q) ↔
        split "[::1] :5901".toList 5900 .display = .ok (h, q)) ∧
      ¬∀ h q, Freerdp.splitAddress .bits64 "[::1] :3390".toList 3389 = .ok (h, q) ↔
        split "[::1] :3390".toList 3389 .plain = .ok (h, q) := by
  constructor
  · intro h
    exact absurd ((h "::1".toList 5901).2 rfl) error_ne_ok
  · intro h
    exact absurd ((h "::1".toList 3390).2 rfl) error_ne_ok

end Vento.Runtime.Address
