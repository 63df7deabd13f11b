import Vento.Linux.Pins
/-!
# A server is forgotten

`--forget` takes out what `same_server` says is the server's, and nothing else. What is pinned
for an address under a network is filed as `address@network`, and the key of that is matched
with the key of the address: `sameServer_network_iff` says when it is found. It is not where the
network has an `@` of its own, or the address ends in a character that its own key is without.

An address that names a port finds any spelling of it (`split_key`), but for one whose host begins
with an ASCII control (`exists_unfound`).
-/

namespace Vento.Linux.KnownHosts

open Vento.Lib Vento.Lib.Str Vento.Runtime.Address Vento.Api Vento.Api.Trust

/-- What a key is trimmed of. -/
abbrev isLow (c : Char) : Bool := decide (c ≤ ' ')

/-- Both name the same host and an explicit port, the same one, under one reading of it. -/
def SamePlace (b a : Str) : Prop :=
  ∃ ports h q, q ≠ 0 ∧ split b 0 ports = .ok (h, q) ∧ split a 0 ports = .ok (h, q)

/-- What is so of a store file once an address is forgotten in it: nothing matches for the address, whatever
the network, nor for another spelling of its port, as it is written or as it is filed, and what is another
server's stays. -/
structure Forgets (u : Unicode) (path : Str) (about : About) (address : Str) (options : Str → Str) (file : File) : Prop where
  unmatched : ∀ fingerprint,
    (Trust.decide u store (pinnedAs about address options) fingerprint (forgetIn u path address file).1).1 ≠ .matched
  spelled : ∀ b, SamePlace b address ∨ SamePlace (key u b) (key u address) → ∀ silent fingerprint,
    (Trust.decide u store ⟨b, silent⟩ fingerprint (forgetIn u path address file).1).1 ≠ .matched
  kept : (forgetIn u path address file).1.pins.filter (fun p => !sameServer u p.1 address) =
    file.pins.filter fun p => !sameServer u p.1 address

/-- The network is without an `@`, and the address ends in a character of its key if it has any. -/
def Found (about : About) (address : Str) (options : Str → Str) : Prop :=
  ∀ network ∈ about.pinning.network,
    '@' ∉ network.named options ∧ trimMatches isLow address = address.dropWhile isLow

/-- Where the address names a port and its host begins with an ASCII control, the host has a colon, so it is in
brackets however it is written. -/
def Headed (address : Str) : Prop :=
  ∀ ports h q, q ≠ 0 → split address 0 ports = .ok (h, q) → (∃ c ∈ h.head?, c ≤ ' ') → ':' ∈ h

/-! ## Keys -/

section Keys

variable {u : Unicode}

theorem ascii_of_low {c : Char} (h : isLow c = true) : c.toNat < 128 ∧ c.isAlpha = false := by
  have hlt : c.toNat < 33 := Nat.lt_succ_of_le (of_decide_eq_true h)
  exact ⟨by omega, forall_toNat_lt (P := fun c => c.isAlpha = false) (by decide) c hlt⟩

theorem apart_low (hu : u.Documented) : u.Apart isLow := hu.apart_ascii fun _ => ascii_of_low

theorem key_key (hu : u.Documented) (a : Str) : key u (key u a) = key u a := by
  have hp := apart_low hu
  show u.toLowercase (trimMatches isLow (u.toLowercase (trimMatches isLow a))) = _
  rw [hp.trimMatches_toLowercase hu.lower_ne_nil, (bare_trimMatches isLow a).trimMatches_eq_self, hu.toLowercase_toLowercase]
  rfl

theorem count_at_key (hu : u.Documented) (a : Str) : (key u a).count '@' = a.count '@' :=
  (hu.count_toLowercase (by decide) (by decide) _).trans (count_trimMatches (by decide) a)

theorem samePort_iff {stored asked : Str} {ports : Ports} :
    samePort stored asked ports = true ↔
      ∃ h q, q ≠ 0 ∧ split stored 0 ports = .ok (h, q) ∧ split asked 0 ports = .ok (h, q) := by
  unfold samePort
  cases hs : split stored 0 ports with
  | error e => simp
  | ok a =>
    cases ha : split asked 0 ports with
    | error e => simp
    | ok b =>
      simp only [decide_eq_true_eq, Except.ok.injEq]
      constructor
      · rintro ⟨hq, rfl⟩
        exact ⟨a.1, a.2, hq, rfl, rfl⟩
      · rintro ⟨h, q, hq, rfl, rfl⟩
        exact ⟨hq, rfl⟩

theorem samePlace_iff {b a : Str} : SamePlace b a ↔ samePort b a .plain = true ∨ samePort b a .display = true := by
  rw [samePort_iff, samePort_iff]
  constructor
  · rintro ⟨ports, h⟩
    cases ports
    · exact .inl h
    · exact .inr h
  · rintro (h | h)
    · exact ⟨.plain, h⟩
    · exact ⟨.display, h⟩

/-- The three ways in which a key is found. -/
theorem sameServer_key_iff (hu : u.Documented) (b a : Str) :
    sameServer u (key u b) a = true ↔
      key u b = key u a ∨ (∃ n, key u b = key u a ++ '@' :: n ∧ '@' ∉ n) ∨ SamePlace (key u b) (key u a) := by
  unfold sameServer
  simp only [key_key hu]
  split
  · next h => simp [h]
  · next h =>
    rw [samePlace_iff]
    split
    · next hnet =>
      obtain ⟨⟨host, n⟩, hsplit, rfl⟩ : ∃ p : Str × Str, rsplitOnce '@' (key u b) = some p ∧ p.1 = key u a := by
        simpa [Option.any_eq_true] using hnet
      simpa using .inr (.inl ⟨n, rsplitOnce_eq_some.1 hsplit⟩)
    · next hnet =>
      have hnone : ¬∃ n, key u b = key u a ++ '@' :: n ∧ '@' ∉ n := by
        rintro ⟨n, hn⟩
        exact hnet (by rw [rsplitOnce_eq_some.2 hn]; simp)
      simp [h, hnone]

theorem sameServer_self (hu : u.Documented) (a : Str) : sameServer u (key u a) a = true :=
  (sameServer_key_iff hu a a).2 (.inl rfl)

/-- One place is written with the same characters, those of a port and the brackets apart. -/
theorem SamePlace.count {b a : Str} (h : SamePlace b a) {x : Char} (hx : ¬(x = ':' ∨ IsPortChar x)) (hopen : x ≠ '[')
    (hclose : x ≠ ']') : b.count x = a.count x := by
  obtain ⟨ports, host, q, hq, hb, ha⟩ := h
  have hwhite : isWhitespace x = false := by
    rw [Bool.eq_false_iff]
    exact fun h => hx (.inr (.inl h))
  rw [← count_trimMatches hwhite b, ← count_trimMatches hwhite a]
  rw [split_iff_explicit hq] at hb ha
  exact (hb.count hx hopen hclose).symm.trans (ha.count hx hopen hclose)

theorem not_at : ¬('@' = ':' ∨ IsPortChar '@') := by
  rintro (h | h | h | h) <;> cases h

/-! ## Under a network -/

theorem key_network (hu : u.Documented) (a n : Str) :
    key u (a ++ '@' :: n) = u.toLowercase (a.dropWhile isLow) ++ '@' :: u.toLowercase (n.rdropWhile isLow) := by
  have hbare : Bare isLow ['@'] := by
    constructor
    · rintro c ⟨⟩
      decide
    · rintro c ⟨⟩
      decide
  have htrim : trimMatches isLow (a ++ '@' :: n) = a.dropWhile isLow ++ '@' :: n.rdropWhile isLow :=
    trimMatches_around hbare (List.cons_ne_nil _ _) a n
  have hneutral : Unicode.Neutral u '@' := hu.neutral_ascii (by decide) (by decide)
  show u.toLowercase (trimMatches isLow (a ++ '@' :: n)) = _
  rw [htrim, Unicode.toLowercase_append_cons hneutral hu.at_not_ignorable]

theorem mem_rdropWhile {x : Char} (hx : isLow x = false) (n : Str) : x ∈ n.rdropWhile isLow ↔ x ∈ n := by
  conv_rhs => rw [← List.rdropWhile_append_rtakeWhile (p := isLow) (l := n), List.mem_append]
  refine ⟨.inl, fun h => h.elim id fun hmem => ?_⟩
  cases hx.symm.trans (List.mem_rtakeWhile_imp hmem)

/-- When what is filed under a network is found by the address. -/
theorem sameServer_network_iff (hu : u.Documented) (a n : Str) :
    sameServer u (key u (a ++ '@' :: n)) a = true ↔ '@' ∉ n ∧ trimMatches isLow a = a.dropWhile isLow := by
  have happart := apart_low hu
  have hcount : (key u (a ++ '@' :: n)).count '@' ≠ (key u a).count '@' := by
    rw [count_at_key hu, count_at_key hu, List.count_append, List.count_cons_self]
    omega
  have hsplit := List.rdropWhile_append_rtakeWhile (p := isLow) (l := a.dropWhile isLow)
  have hlow : ∀ c ∈ (a.dropWhile isLow).rtakeWhile isLow, isLow c = true := fun c hc => List.mem_rtakeWhile_imp hc
  generalize (a.dropWhile isLow).rtakeWhile isLow = w at hsplit hlow
  have hkey : key u (a ++ '@' :: n) = key u a ++ (w ++ '@' :: u.toLowercase (n.rdropWhile isLow)) := by
    rw [key_network hu, ← hsplit, Unicode.toLowercase_append_neutral _ fun c hc => happart.neutral c (hlow c hc),
      List.append_assoc]
    rfl
  have hw : trimMatches isLow a = a.dropWhile isLow ↔ w = [] := by
    rw [← hsplit]
    exact List.self_eq_append_right
  have hmem : '@' ∈ u.toLowercase (n.rdropWhile isLow) ↔ '@' ∈ n :=
    (hu.mem_toLowercase (by decide) (by decide) _).trans (mem_rdropWhile (by decide) n)
  rw [sameServer_key_iff hu, hw]
  constructor
  · rintro (h | ⟨m, h, hm⟩ | h)
    · exact absurd (congrArg (List.count '@') h) hcount
    · rw [hkey, List.append_cancel_left_eq] at h
      cases w with
      | nil =>
        obtain ⟨-, rfl⟩ := List.cons.inj h
        exact ⟨fun hn => hm (hmem.2 hn), rfl⟩
      | cons c w =>
        obtain ⟨rfl, -⟩ := List.cons.inj h
        exact absurd (hlow '@' List.mem_cons_self) (by decide)
    · exact absurd (h.count not_at (by decide) (by decide)) hcount
  · rintro ⟨hn, rfl⟩
    exact .inr (.inl ⟨_, hkey, fun h => hn (hmem.1 h)⟩)

/-! ## With a port -/

theorem not_low_of_end {c : Char} (h : c = ':' ∨ IsPortChar c) (hw : isWhitespace c = false) : isLow c = false := by
  rcases h with rfl | h | h | rfl
  · decide
  · cases hw.symm.trans h
  · simp only [Char.isDigit, ge_iff_le, Bool.and_eq_true, decide_eq_true_eq, UInt32.le_iff_toNat_le] at h
    have hlo : 48 ≤ c.toNat := h.1
    refine decide_eq_false fun hle => ?_
    have hle' : c.toNat ≤ 32 := hle
    omega
  · decide

/-- What names a port ends in a character that a key keeps. -/
theorem last_not_low {ports : Ports} {y h : Str} {q : Nat} (he : Explicit ports y h q) (hy : Bare isWhitespace y) :
    ∀ c ∈ y.getLast?, isLow c = false := by
  intro c hc
  have hwhite := hy.last c hc
  obtain ⟨pre, z, rfl, hz, hends⟩ := he.ends
  rw [List.getLast?_append_of_ne_nil _ hz] at hc
  exact not_low_of_end (hends c (List.mem_of_getLast? hc)) hwhite

/-- It begins with one too, in brackets or by its host. -/
theorem head_not_low {ports : Ports} {y h : Str} {q : Nat} (he : Explicit ports y h q)
    (hh : (∃ c ∈ h.head?, c ≤ ' ') → ':' ∈ h) : ∀ c ∈ y.head?, isLow c = false := by
  have hhost : ∀ t : Str, h ≠ [] → ':' ∉ h → ∀ c ∈ (h ++ t).head?, isLow c = false := by
    intro t hne hcolon c hc
    rw [List.head?_append_of_ne_nil _ hne] at hc
    exact decide_eq_false fun hle => hcolon (hh ⟨c, hc, hle⟩)
  cases he with
  | bracketed =>
    rintro c hc
    cases hc
    decide
  | doubled _ _ hne hcolon => exact hhost _ hne hcolon
  | single _ hne hcolon => exact hhost _ hne hcolon

/-- The key of an address that names a port does, in lower case. -/
theorem split_key (hu : u.Documented) {ports : Ports} {a h : Str} {q : Nat} (hq : q ≠ 0) (hs : split a 0 ports = .ok (h, q))
    (hh : (∃ c ∈ h.head?, c ≤ ' ') → ':' ∈ h) : split (key u a) 0 ports = .ok (u.toLowercase h, q) := by
  rw [split_iff_explicit hq] at hs ⊢
  have hbare : Bare isLow (trim a) := ⟨head_not_low hs hh, last_not_low hs (bare_trimMatches _ a)⟩
  have hne : trim a ≠ [] := by
    obtain ⟨pre, z, hy, hz, -⟩ := hs.ends
    rw [hy]
    exact List.append_ne_nil_of_right_ne_nil pre hz
  have htrim : trim (trimMatches isLow a) = trim a := by
    obtain ⟨w, w', ha, hw, hw'⟩ := exists_trimMatches isWhitespace a
    have hlow : trimMatches isLow a = w.dropWhile isLow ++ (trim a ++ w'.rdropWhile isLow) := by
      conv_lhs => rw [ha]
      exact trimMatches_around hbare hne w w'
    rw [hlow]
    exact trimMatches_eq (bare_trimMatches _ a) (fun c hc => hw c ((List.dropWhile_sublist _).subset hc))
      fun c hc => hw' c ((List.rdropWhile_prefix _ w').subset hc)
  have hkey : trim (key u a) = u.toLowercase (trim a) := by
    rw [← htrim]
    exact hu.apart_white.trimMatches_toLowercase hu.lower_ne_nil (trimMatches isLow a)
  rw [hkey]
  exact hs.toLowercase hu

/-- A place whose host has no colon is written without brackets too. -/
theorem Explicit.unbracketed {ports : Ports} {y h : Str} {q : Nat} (he : Explicit ports y h q) (hy : Bare isWhitespace y)
    (hcolon : ':' ∉ h) (hbracket : h.head? ≠ some '[') : ∃ t, Explicit ports (h ++ t) h q ∧ Bare isWhitespace (h ++ t) := by
  cases he with
  | @bracketed host rest tail _ hhost hrest hnum hne =>
    have htail : ':' ∉ tail := by
      intro hmem
      rcases (number_ok (hnum [])).2.2 ':' hmem with h | h | h <;> cases h
    refine ⟨':' :: tail, .single hbracket hne hcolon htail hnum, ?_, ?_⟩
    · rw [List.head?_append_of_ne_nil _ hne]
      exact (bare_trimMatches _ host).head
    · rw [List.getLast?_append_of_ne_nil _ (List.cons_ne_nil _ _), ← hrest]
      exact (bare_trimMatches _ rest).last
  | @doubled _ tail _ hports _ hne _ htail hnum => exact ⟨_, .doubled hports hbracket hne hcolon htail hnum, hy⟩
  | @single _ tail _ _ hne _ htail hnum => exact ⟨_, .single hbracket hne hcolon htail hnum, hy⟩

theorem SamePlace.key_ne_nil (hu : u.Documented) {b a : Str} (h : SamePlace b a) : key u b ≠ [] := by
  obtain ⟨ports, host, q, hq, hb, -⟩ := h
  rw [split_iff_explicit hq] at hb
  obtain ⟨pre, z, hy, hz, -⟩ := hb.ends
  have hne : trim b ≠ [] := by
    rw [hy]
    exact List.append_ne_nil_of_right_ne_nil pre hz
  have hlow := last_not_low hb (bare_trimMatches _ b) _ (List.getLast?_eq_some_getLast hne)
  have hmem : (trim b).getLast hne ∈ b := (trimMatches_sublist _ b).subset (List.getLast_mem hne)
  refine hu.toLowercase_ne_nil (List.ne_nil_of_mem (a := (trim b).getLast hne) ?_)
  rwa [← List.count_pos_iff, count_trimMatches hlow, List.count_pos_iff]

/-- A place whose host begins with a control has a spelling that keeps it in its key and one that does not. The
address finds one of them at most. -/
theorem exists_unfound (hu : u.Documented) {ports : Ports} {a h : Str} {q : Nat} {c : Char} (hq : q ≠ 0)
    (hs : split a 0 ports = .ok (h, q)) (hc : c ∈ h.head?) (hlow : c ≤ ' ') (hcolon : ':' ∉ h) :
    ∃ b, SamePlace b a ∧ ¬sameServer u (key u b) a = true := by
  have hlow' : isLow c = true := decide_eq_true hlow
  have hbracket : h.head? ≠ some '[' := by
    rw [hc]
    rintro ⟨⟩
    exact absurd hlow (by decide)
  obtain ⟨t, ht, hbare⟩ := Explicit.unbracketed ((split_iff_explicit hq).1 hs) (bare_trimMatches _ a) hcolon hbracket
  obtain ⟨l, hl⟩ : ∃ l, h ++ t = c :: l := by
    cases h with
    | nil => cases hc
    | cons d h =>
      cases hc
      exact ⟨h ++ t, rfl⟩
  have hx : ¬(c = ':' ∨ IsPortChar c) := by
    intro hend
    have hwhite : isWhitespace c = false := hbare.head c (by rw [hl]; rfl)
    cases hlow'.symm.trans (not_low_of_end hend hwhite)
  have hplace : ∀ w : Str, (∀ d ∈ w, isWhitespace d = true) → SamePlace (w ++ (h ++ t)) a := by
    intro w hw
    have htrim : trim (w ++ (h ++ t ++ [])) = h ++ t := trimMatches_eq hbare hw (by simp)
    rw [List.append_nil] at htrim
    exact ⟨ports, h, q, hq, (split_iff_explicit hq).2 (by rwa [htrim]), hs⟩
  have hcount : ∀ b, SamePlace b a → sameServer u (key u b) a = true → (key u b).count c = (key u a).count c := by
    intro b hb hfound
    rcases (sameServer_key_iff hu b a).1 hfound with heq | ⟨n, heq, -⟩ | hkey
    · rw [heq]
    · have hat : (key u b).count '@' = (key u a).count '@' := by
        rw [count_at_key hu, count_at_key hu]
        exact hb.count not_at (by decide) (by decide)
      rw [heq, List.count_append, List.count_cons_self] at hat
      omega
    · refine hkey.count hx ?_ ?_
      · rintro rfl
        exact absurd hlow (by decide)
      · rintro rfl
        exact absurd hlow (by decide)
  have hlower : ∀ s : Str, (u.toLowercase s).count c = s.count c := hu.count_toLowercase (ascii_of_low hlow').1 (ascii_of_low hlow').2
  -- the control is trimmed, or it is not since a space that is not ASCII stands before it
  have hshort : (key u ([] ++ (h ++ t))).count c < (h ++ t).count c := by
    rw [key, hlower, List.nil_append, hl, trimMatches, List.dropWhile_cons_of_pos hlow', List.count_cons_self]
    exact Nat.lt_succ_of_le ((trimMatches_sublist isLow l).count_le c)
  have hlong : (key u ([Char.ofNat 0xa0] ++ (h ++ t))).count c = (h ++ t).count c := by
    have hkept : Bare isLow ([Char.ofNat 0xa0] ++ (h ++ t)) := by
      constructor
      · rintro d ⟨⟩
        decide
      rw [List.getLast?_append_of_ne_nil _ (by rw [hl]; exact List.cons_ne_nil c l)]
      exact last_not_low ht hbare
    rw [key, hlower, hkept.trimMatches_eq_self, List.singleton_append, List.count_cons_of_ne]
    rintro rfl
    exact absurd hlow (by decide)
  have hspace : ∀ d ∈ [Char.ofNat 0xa0], isWhitespace d = true := by
    intro d hd
    rw [List.mem_singleton.1 hd]
    decide
  by_contra hall
  have hfound : ∀ b, SamePlace b a → sameServer u (key u b) a = true := fun b hb => by
    by_contra hnot
    exact hall ⟨b, hb, hnot⟩
  have h₁ := hcount _ (hplace [] (by simp)) (hfound _ (hplace [] (by simp)))
  have h₂ := hcount _ (hplace _ hspace) (hfound _ (hplace _ hspace))
  omega

end Keys

/-! ## What is left in the file -/

theorem pinFor_forgetIn (u : Unicode) (path address : Str) (file : File) (k : Str) :
    pinFor (forgetIn u path address file).1.pins k =
      if sameServer u k address = true then none else pinFor file.pins k := by
  rw [forgetIn]
  dsimp only
  rw [File.pins_removeWhere]
  exact pinFor_filter file.pins (fun key => sameServer u key address) k

/-- A key that the address finds matches no more. -/
theorem unmatched_of_found {u : Unicode} {address : Str} {pinned : Pinned}
    (h : sameServer u (key u pinned.key) address = true) (path : Str) (file : File) (fingerprint : Str) :
    (Trust.decide u store pinned fingerprint (forgetIn u path address file).1).1 ≠ .matched := by
  intro hmatched
  rcases decide_cases u store pinned fingerprint (forgetIn u path address file).1 with ⟨p, hp, -, -⟩ | ⟨-, -, hd⟩ | ⟨i, o, hd⟩
  · have hnone := (pinFor_forgetIn u path address file (key u pinned.key)).trans (if_pos h)
    cases hnone.symm.trans hp
  · rw [hd] at hmatched
    cases hmatched
  · rw [hd] at hmatched
    cases hmatched

/-- One that it does not find still does, in the file where it is all there is. -/
theorem found_of_unmatched {u : Unicode} {path address : Str} {pinned : Pinned} (hne : key u pinned.key ≠ [])
    (h : ∀ file fingerprint, (Trust.decide u store pinned fingerprint (forgetIn u path address file).1).1 ≠ .matched) :
    sameServer u (key u pinned.key) address = true := by
  by_contra hnot
  refine h (File.set [] (key u pinned.key) "0".toList) "0".toList ?_
  have hpin : pinFor (store.pins (forgetIn u path address (File.set [] (key u pinned.key) "0".toList)).1) (key u pinned.key) =
      some "0".toList := by
    refine (pinFor_forgetIn u path address _ _).trans ?_
    rw [if_neg hnot, File.pinFor_set, if_pos rfl, if_pos ⟨hne, by decide⟩]
  rw [Trust.decide, (verdict_matched_iff u _ _ _).2 ⟨_, hpin, rfl⟩]

theorem forgetIn_kept (u : Unicode) (path address : Str) (file : File) :
    (forgetIn u path address file).1.pins.filter (fun p => !sameServer u p.1 address) =
      file.pins.filter fun p => !sameServer u p.1 address := by
  rw [forgetIn]
  dsimp only
  rw [File.pins_removeWhere, List.filter_filter]
  simp only [Bool.and_self]

theorem pinnedAs_network {about : About} {network : Network} (h : about.pinning.network = some network) (address : Str)
    (options : Str → Str) : (pinnedAs about address options).key = address ++ '@' :: network.named options := by
  rw [pinnedAs, h]

theorem pinnedAs_address {about : About} (h : about.pinning.network = none) (address : Str) (options : Str → Str) :
    (pinnedAs about address options).key = address := by
  rw [pinnedAs, h]

/-- Forgetting an address is complete, and no wider, in every store file, exactly where the address is found under
the network the options name and its host begins with no control. -/
theorem forgets_iff {u : Unicode} (hu : u.Documented) (path : Str) (about : About) (address : Str) (options : Str → Str) :
    (∀ file, Forgets u path about address options file) ↔ Found about address options ∧ Headed address := by
  constructor
  · intro h
    constructor
    · intro network hnetwork
      have hkey := pinnedAs_network hnetwork address options
      have hne : key u (pinnedAs about address options).key ≠ [] := by
        rw [hkey, key_network hu]
        exact List.append_ne_nil_of_right_ne_nil _ (List.cons_ne_nil _ _)
      have hfound := found_of_unmatched hne fun file => (h file).unmatched
      rw [hkey] at hfound
      exact (sameServer_network_iff hu address (network.named options)).1 hfound
    · rintro ports host q hq hs ⟨c, hc, hlow⟩
      by_contra hcolon
      obtain ⟨b, hb, hnot⟩ := exists_unfound hu hq hs hc hlow hcolon
      have hspelled : ∀ file fingerprint,
          (Trust.decide u store ⟨b, false⟩ fingerprint (forgetIn u path address file).1).1 ≠ .matched :=
        fun file => (h file).spelled b (.inl hb) false
      exact hnot (@found_of_unmatched u path address ⟨b, false⟩ (hb.key_ne_nil hu) hspelled)
  · rintro ⟨hfound, hheaded⟩ file
    refine ⟨unmatched_of_found ?_ path file, fun b hb silent => unmatched_of_found ?_ path file, forgetIn_kept u path address file⟩
    · cases hnetwork : about.pinning.network with
      | none =>
        rw [pinnedAs_address hnetwork]
        exact sameServer_self hu address
      | some network =>
        rw [pinnedAs_network hnetwork, sameServer_network_iff hu]
        exact hfound network hnetwork
    · refine (sameServer_key_iff hu b address).2 (.inr (.inr ?_))
      rcases hb with ⟨ports, host, q, hq, hb, ha⟩ | hkeys
      · have hh := hheaded ports host q hq ha
        exact ⟨ports, u.toLowercase host, q, hq, split_key hu hq hb hh, split_key hu hq ha hh⟩
      · exact hkeys

/-- The RustDesk backend, whose pins are an identifier's on its network. -/
def rustdesk : About := ⟨⟨some ⟨"RendezvousServer".toList, "rs-ny.rustdesk.com".toList⟩, true⟩⟩

theorem forgets_iff_port :
    Forgets Unicode.asciiSigma [] rustdesk "10.0.0.5:1".toList (fun _ => " hbbs.example ".toList)
      (bytes "10.0.0.5:1@hbbs.example AA\n10.0.0.5::5901 BB\n10.0.0.6:1 CC\n".toList) := by
  refine (forgets_iff Unicode.documented_asciiSigma [] rustdesk "10.0.0.5:1".toList fun _ => " hbbs.example ".toList).2
    ⟨?_, ?_⟩ _
  · rintro network ⟨⟩
    decide +kernel
  · rintro ports host q hq hs ⟨c, hc, hlow⟩
    have hplain : split "10.0.0.5:1".toList 0 .plain = .ok ("10.0.0.5".toList, 1) := by rfl
    have hdisplay : split "10.0.0.5:1".toList 0 .display = .ok ("10.0.0.5".toList, 5901) := by rfl
    cases ports
    · cases hplain.symm.trans hs
      cases hc
      exact absurd hlow (by decide)
    · cases hdisplay.symm.trans hs
      cases hc
      exact absurd hlow (by decide)

/-- The first key of `10.0.0.5` is accepted with a space after the address, the address is forgotten as it was
given, and the key still matches. -/
theorem trailing_space_remembered :
    let pinned := pinnedAs rustdesk "10.0.0.5 ".toList fun _ => []
    (Trust.decide Unicode.asciiSigma store pinned "66:cc".toList
      (forgetIn Unicode.asciiSigma [] "10.0.0.5 ".toList
        (Trust.decide Unicode.asciiSigma store pinned "66:cc".toList []).2).1).1 = .matched := by
  decide +kernel

end Vento.Linux.KnownHosts
