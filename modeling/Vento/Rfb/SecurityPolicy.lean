import Vento.Rfb.Security
/-!
# What a policy promises

`require` is TLS with a certificate the user trusts or nothing, `plain` is no TLS,
and under VeNCrypt nothing that is written before the certificate is trusted
depends on what the user enters. The last compares two handshakes: whatever the
answers to `credentials`, what is done up to the answer to `trust` is the same.
-/

namespace Vento.Rfb

open Vento.Lib

namespace Effect

/-- The certificate was accepted. -/
def trusted : Effect → Bool
  | askedTrust _ answer => answer
  | _ => false

def ordinary : Effect → Bool
  | wrote _ => true
  | askedCredentials _ => true
  | _ => false

def isHello : Effect → Bool
  | clientHello _ => true
  | _ => false

end Effect

def Wire.TlsStarted (wire : Wire) : Prop := ∃ e ∈ wire.log, e.isHello

/-- What was done before the certificate was accepted. -/
def beforeTrust (log : List Effect) : List Effect := log.takeWhile (!·.trusted)

namespace Handshake

open Comp

/-! ## What a step does -/

/-- A step that adds only such effects, and keeps the layer. -/
def Extends (E : Effect → Prop) (wire wire' : Wire) : Prop :=
  wire'.peer = wire.peer ∧ ∃ es, wire'.log = wire.log ++ es ∧ ∀ e ∈ es, E e

variable {E : Effect → Prop} {α β : Type}

theorem Extends.refl (wire : Wire) : Extends E wire wire := ⟨rfl, [], by simp, nofun⟩

theorem Extends.trans (s t u : Wire) (h : Extends E s t) (h' : Extends E t u) : Extends E s u := by
  obtain ⟨hpeer, es, hlog, hes⟩ := h
  obtain ⟨hpeer', es', hlog', hes'⟩ := h'
  refine ⟨hpeer'.trans hpeer, es ++ es', ?_, List.forall_mem_append.2 ⟨hes, hes'⟩⟩
  rw [hlog', hlog, List.append_assoc]

/-- Every effect of `p` is in `E`. -/
abbrev Does (E : Effect → Prop) (p : Handshake α) : Prop := Moves (Extends E) p

theorem Does.bind {p : Handshake α} {f : α → Handshake β} (hp : Does E p) (hf : ∀ a, Does E (f a)) : Does E (p >>= f) :=
  Moves.bind Extends.trans hp hf

theorem does_pure (a : α) : Does E (pure a : Handshake α) := Moves.pure Extends.refl a

theorem does_read (p : Reader α) : Does E (read p) := by
  intro wire
  unfold read
  split <;> exact ⟨rfl, [], by simp, nofun⟩

theorem does_log {e : Effect} (h : E e) : Does E (log e) :=
  fun _ => ⟨rfl, [e], rfl, fun _ he => List.mem_singleton.1 he ▸ h⟩

theorem does_fail (e : Error) : Does E (fail e : Handshake α) := Extends.refl

theorem does_ite {c : Prop} [Decidable c] {p q : Handshake α} (hp : Does E p) (hq : Does E q) :
    Does E (if c then p else q) := by
  split
  · exact hp
  · exact hq

/-- What every security type may do. -/
def Ordinary (e : Effect) : Prop := e.ordinary = true

/-- Anything but the start of TLS. -/
def NoHello (e : Effect) : Prop := e.isHello = false

theorem Does.noHello {p : Handshake α} (h : Does Ordinary p) : Does NoHello p := by
  refine h.mono fun _ _ ⟨hpeer, es, hlog, hes⟩ => ⟨hpeer, es, hlog, fun e he => ?_⟩
  have hordinary := hes e he
  cases e <;> first | rfl | cases hordinary

theorem does_write (bytes : List UInt8) : Does Ordinary (write bytes) := does_log rfl

theorem does_askCredentials (ask : Ask) (needsUser : Bool) : Does Ordinary (askCredentials ask needsUser) := by
  refine fun _ => ⟨rfl, [.askedCredentials needsUser], rfl, fun e he => ?_⟩
  rw [List.mem_singleton.1 he]
  rfl

theorem does_refused : Does E (refused : Handshake α) := (does_read _).bind fun _ => does_fail _

theorem does_securityType (version : Version) (policy : Security) : Does Ordinary (securityType version policy) := by
  unfold securityType
  split
  · refine (does_read _).bind fun count => does_ite does_refused ((does_read _).bind fun offered => ?_)
    split
    · exact does_fail _
    · exact (does_write _).bind fun _ => does_pure _
  · exact does_ite (does_fail _) ((does_read _).bind fun kind => does_ite does_refused (does_pure _))

theorem does_vncAuthExchange (far : Far) (ask : Ask) : Does Ordinary (vncAuthExchange far ask) := by
  refine (does_read _).bind fun challenge => (does_askCredentials ask false).bind fun answer => ?_
  split
  · exact does_fail _
  · exact does_write _

theorem does_plainExchange (ask : Ask) : Does Ordinary (plainExchange ask) := by
  refine (does_askCredentials ask true).bind fun answer => ?_
  split
  · exact does_fail _
  · exact (does_write _).bind fun _ => (does_write _).bind fun _ => (does_write _).bind fun _ => does_write _

theorem does_pickSubtype (offered : List Nat) : Does Ordinary (pickSubtype offered) := by
  unfold pickSubtype
  split
  · exact does_fail _
  · exact (does_write _).bind fun _ => does_pure _

theorem does_subtype : Does Ordinary subtype := by
  refine (does_read _).bind fun major => (does_read _).bind fun minor => does_ite (does_fail _) ?_
  refine (does_write _).bind fun _ => (does_write _).bind fun _ => (does_read _).bind fun ack => ?_
  refine does_ite (does_fail _) ((does_read _).bind fun count => ?_)
  exact does_ite (does_fail _) ((does_read _).bind fun offered => does_pickSubtype offered)

theorem does_subtypeExchange (far : Far) (ask : Ask) (chosen : Nat) : Does Ordinary (subtypeExchange far ask chosen) :=
  does_ite (does_pure _) (does_ite ((does_vncAuthExchange far ask).bind fun _ => does_pure _)
    ((does_plainExchange ask).bind fun _ => does_pure _))

/-- The result is read, and nothing else is done. -/
theorem does_securityResult (version : Version) (kind : UInt8) : Does E (securityResult version kind) := by
  have hreason : Does E (reason version) := by
    intro wire
    unfold reason
    split
    · split <;> exact ⟨rfl, [], by simp, nofun⟩
    · exact ⟨rfl, [], by simp, nofun⟩
  exact does_ite ((does_read _).bind fun result => does_ite (does_pure _) (hreason.bind fun why => does_fail _))
    (does_pure _)

/-! ## When TLS is started -/

theorem tlsStarted_iff {wire wire' : Wire} (h : Extends NoHello wire wire') : wire'.TlsStarted ↔ wire.TlsStarted := by
  obtain ⟨-, es, hlog, hes⟩ := h
  unfold Wire.TlsStarted
  rw [hlog]
  constructor
  · rintro ⟨e, he, hhello⟩
    rcases List.mem_append.1 he with he | he
    · exact ⟨e, he, hhello⟩
    · rw [hes e he] at hhello
      cases hhello
  · rintro ⟨e, he, hhello⟩
    exact ⟨e, by simp [he], hhello⟩

/-- What follows does not start TLS. -/
theorem tlsStarted_bind {p : Handshake α} {f : α → Handshake β} (hf : ∀ a, Does NoHello (f a)) (wire : Wire) :
    ((p >>= f) wire).2.TlsStarted ↔ (p wire).2.TlsStarted := by
  cases h : p wire with
  | mk r wire' =>
    cases r with
    | error e => rw [bind_error h]
    | ok a =>
      rw [bind_ok h]
      exact tlsStarted_iff (hf a wire')

theorem does_peerFingerprint : Does E peerFingerprint := by
  intro wire
  unfold peerFingerprint
  split <;> exact Extends.refl wire

/-- The ClientHello is the one effect of the upgrade. -/
theorem startTls_log (far : Far) (host : String) (chosen : Nat) (wire : Wire) :
    (far.ahead = 0 ∧ ∃ hello, far.hello host = .ok hello ∧
      (startTls far host chosen wire).2.log = wire.log ++ [.clientHello hello]) ∨
    (¬(far.ahead = 0 ∧ ∃ hello, far.hello host = .ok hello) ∧ (startTls far host chosen wire).2.log = wire.log) := by
  unfold startTls
  split
  · rename_i hahead
    exact .inr ⟨fun h => hahead h.1, rfl⟩
  · rename_i hahead
    cases hhello : far.hello host with
    | error e => exact .inr ⟨fun h => (nomatch h.2), rfl⟩
    | ok hello =>
      refine .inl ⟨by omega, hello, rfl, ?_⟩
      -- after it the log stays, on every path
      have hrest : Moves (fun s t : Wire => t.log = s.log) (do
          let ack ← read u8
          if ack = 0 then fail (.refused s!"the server refused VeNCrypt sub-type {chosen}") else completeTls far) := by
        refine Moves.bind (fun _ _ _ h h' => h'.trans h) (fun wire => ?_) fun ack => ?_
        · unfold read
          split <;> rfl
        · split
          · exact fun _ => rfl
          · intro wire
            unfold completeTls
            split <;> rfl
      exact hrest { wire with log := wire.log ++ [.clientHello hello] }

theorem tlsStarted_startTls {far : Far} {host : String} {chosen : Nat} {wire : Wire} (hno : ¬wire.TlsStarted) :
    (startTls far host chosen wire).2.TlsStarted ↔ far.ahead = 0 ∧ ∃ hello, far.hello host = .ok hello := by
  rcases startTls_log far host chosen wire with ⟨hahead, hello, hhello, hlog⟩ | ⟨hnot, hlog⟩
  · refine iff_of_true ⟨.clientHello hello, ?_, rfl⟩ ⟨hahead, hello, hhello⟩
    rw [hlog]
    simp
  · refine iff_of_false (fun hs => hno ?_) hnot
    rwa [Wire.TlsStarted, hlog] at hs

theorem tlsStarted_vencrypt {far : Far} {host : String} {ask : Ask} {wire : Wire} (hno : ¬wire.TlsStarted) :
    (vencrypt far host ask wire).2.TlsStarted ↔
      (∃ chosen wire', subtype wire = (.ok chosen, wire')) ∧ far.ahead = 0 ∧ ∃ hello, far.hello host = .ok hello := by
  have hrest : ∀ r : Nat × String, Does NoHello (do
      if !(← askTrust ask r.2) then fail .untrusted else subtypeExchange far ask r.1) := by
    intro r
    refine Does.bind (fun wire => ⟨rfl, [_], rfl, ?_⟩) fun answer =>
      does_ite (does_fail _) (does_subtypeExchange far ask r.1).noHello
    exact fun e he => List.mem_singleton.1 he ▸ rfl
  refine (tlsStarted_bind hrest wire).trans ?_
  have hsub := tlsStarted_iff (does_subtype.noHello wire)
  unfold tunnel
  cases h : subtype wire with
  | mk r wire' =>
    rw [h] at hsub
    cases r with
    | error e =>
      rw [bind_error h]
      exact iff_of_false (fun hs => hno (hsub.1 hs)) fun ⟨⟨_, _, h'⟩, _⟩ => by cases h'
    | ok chosen =>
      rw [bind_ok h, tlsStarted_bind (fun _ => does_peerFingerprint.bind fun _ => does_pure _),
        tlsStarted_startTls fun hs => hno (hsub.1 hs)]
      exact ⟨fun hstart => ⟨⟨chosen, wire', rfl⟩, hstart⟩, fun hstart => hstart.2⟩

/-! ## What dictates it -/

/-- A VeNCrypt server up to its sub-types, with an X.509 one among them. -/
def OffersX509 (bs : List UInt8) : Prop :=
  ∃ major minor count list rest, bs = major :: minor :: 0 :: count :: (list ++ rest) ∧ ¬(major = 0 ∧ minor < 2) ∧
    count ≠ 0 ∧ list.length = 4 * count.toNat ∧
    ∃ t ∈ words list, t = vencryptX509None ∨ t = vencryptX509Vnc ∨ t = vencryptX509Plain

/-- A server that dictates VeNCrypt, by the low byte of its word, and goes on. -/
def DictatesTls (bs : List UInt8) : Prop :=
  ∃ word rest, bs = word ++ rest ∧ word.length = 4 ∧ fromBeBytes word % 256 = secVencrypt.toNat ∧ OffersX509 rest

theorem read_eq_ok {p : Reader α} {wire wire' : Wire} {a : α} :
    read p wire = (.ok a, wire') ↔ ∃ rest, p wire.input = .ok (a, rest) ∧ wire' = { wire with input := rest } := by
  unfold read
  split
  · rename_i b rest h
    rw [h]
    constructor
    · intro heq
      cases heq
      exact ⟨rest, rfl, rfl⟩
    · rintro ⟨rest', heq, rfl⟩
      cases heq
      rfl
  · rename_i f h
    rw [h]
    exact ⟨nofun, fun ⟨_, heq, _⟩ => nomatch heq⟩

theorem pickSubtype_ok_iff (offered : List Nat) (wire : Wire) :
    (∃ chosen wire', pickSubtype offered wire = (.ok chosen, wire')) ↔
      ∃ t ∈ offered, t = vencryptX509None ∨ t = vencryptX509Vnc ∨ t = vencryptX509Plain := by
  have hfind : ([vencryptX509Vnc, vencryptX509Plain, vencryptX509None].find? offered.contains).isSome ↔
      ∃ t ∈ offered, t = vencryptX509None ∨ t = vencryptX509Vnc ∨ t = vencryptX509Plain := by
    rw [List.find?_isSome]
    simp only [List.mem_cons, List.not_mem_nil, or_false, List.contains_iff_mem]
    constructor
    · rintro ⟨t, rfl | rfl | rfl, ht⟩ <;> exact ⟨_, ht, by simp⟩
    · rintro ⟨t, ht, rfl | rfl | rfl⟩ <;> exact ⟨_, by simp, ht⟩
  rw [← hfind, pickSubtype]
  cases [vencryptX509Vnc, vencryptX509Plain, vencryptX509None].find? offered.contains with
  | none => exact iff_of_false nofun nofun
  | some chosen => exact iff_of_true ⟨chosen, _, rfl⟩ rfl

theorem read_u8 (b : UInt8) (rest : List UInt8) (effects : List Effect) (peer : Option Peer) :
    read u8 ⟨b :: rest, effects, peer⟩ = (.ok b, ⟨rest, effects, peer⟩) := rfl

theorem subtype_ok_iff (wire : Wire) :
    (∃ chosen wire', subtype wire = (.ok chosen, wire')) ↔ OffersX509 wire.input := by
  obtain ⟨input, effects, peer⟩ := wire
  constructor
  · rintro ⟨chosen, wire', h⟩
    obtain ⟨major, _, h1, h⟩ := bind_eq_ok.1 h
    obtain ⟨_, hmajor, rfl⟩ := read_eq_ok.1 h1
    obtain ⟨minor, _, h2, h⟩ := bind_eq_ok.1 h
    obtain ⟨_, hminor, rfl⟩ := read_eq_ok.1 h2
    split at h
    · cases h
    rename_i hversion
    obtain ⟨_, _, h3, h⟩ := bind_eq_ok.1 h
    cases h3
    obtain ⟨_, _, h4, h⟩ := bind_eq_ok.1 h
    cases h4
    obtain ⟨ack, _, h5, h⟩ := bind_eq_ok.1 h
    obtain ⟨_, hack, rfl⟩ := read_eq_ok.1 h5
    split at h
    · cases h
    rename_i hzero
    obtain ⟨count, _, h6, h⟩ := bind_eq_ok.1 h
    obtain ⟨_, hcount, rfl⟩ := read_eq_ok.1 h6
    split at h
    · cases h
    rename_i hpos
    obtain ⟨offered, _, h7, h⟩ := bind_eq_ok.1 h
    obtain ⟨rest, hlist, rfl⟩ := read_eq_ok.1 h7
    simp only at hmajor hminor hack hcount hlist
    rw [u8_eq_ok] at hmajor hminor hack hcount
    obtain ⟨list, heq, hlen, rfl⟩ := u32s_eq_ok.1 hlist
    refine ⟨major, minor, count, list, rest, ?_, hversion, hpos, hlen, (pickSubtype_ok_iff _ _).1 ⟨_, _, h⟩⟩
    rw [hmajor, hminor, hack, hcount, heq, not_ne_iff.1 hzero]
  · rintro ⟨major, minor, count, list, rest, rfl, hversion, hpos, hlen, hx509⟩
    obtain ⟨chosen, wire', hpick⟩ := (pickSubtype_ok_iff (words list)
      ⟨rest, effects ++ [.wrote [0]] ++ [.wrote [2]], peer⟩).2 hx509
    refine ⟨chosen, wire', ?_⟩
    unfold subtype
    rw [bind_ok (read_u8 ..), bind_ok (read_u8 ..), if_neg hversion]
    refine (bind_ok rfl).trans ((bind_ok rfl).trans ((bind_ok (read_u8 ..)).trans ?_))
    rw [if_neg (by decide)]
    refine (bind_ok (read_u8 ..)).trans ?_
    rw [if_neg hpos]
    exact (bind_ok (read_eq_ok.2 ⟨rest, u32s_eq_ok.2 ⟨list, rfl, hlen, rfl⟩, rfl⟩)).trans hpick

/-! ## Which type is run -/

theorem choose_require {offered : List UInt8} {kind : UInt8} (h : choose offered .require = .ok kind) :
    kind = secVencrypt := by
  unfold choose at h
  split at h
  · cases h
    rfl
  · cases h

theorem choose_plain {offered : List UInt8} {kind : UInt8} (h : choose offered .plain = .ok kind) :
    kind ≠ secVencrypt := by
  unfold choose at h
  simp only [ne_eq, not_true_eq_false, false_and, if_false, reduceCtorEq] at h
  split at h
  · cases h
    decide
  · split at h
    · cases h
      decide
    · cases h

/-- From 3.7 on the type is one that `choose` gives. -/
theorem securityType_chosen {version : Version} {policy : Security} {wire wire' : Wire} {kind : UInt8}
    (hv : version.atLeast .v3_7 = true) (h : securityType version policy wire = (.ok kind, wire')) :
    ∃ offered, choose offered policy = .ok kind := by
  rw [securityType, if_pos hv] at h
  obtain ⟨count, _, _, h⟩ := bind_eq_ok.1 h
  split at h
  · obtain ⟨_, _, _, h⟩ := bind_eq_ok.1 h
    cases h
  · obtain ⟨offered, _, _, h⟩ := bind_eq_ok.1 h
    cases hc : choose offered policy with
    | error e =>
      rw [hc] at h
      cases h
    | ok chosen =>
      rw [hc] at h
      cases h
      exact ⟨offered, hc⟩

theorem securityType_require {version : Version} {wire wire' : Wire} {kind : UInt8}
    (h : securityType version .require wire = (.ok kind, wire')) : kind = secVencrypt := by
  by_cases hv : version.atLeast .v3_7 = true
  · obtain ⟨offered, hc⟩ := securityType_chosen hv h
    exact choose_require hc
  · rw [securityType, if_neg hv] at h
    cases h

/-- Under `plain` VeNCrypt is run only where the server dictates it. -/
theorem securityType_plain (version : Version) (input : List UInt8) (wire : Wire) :
    securityType version .plain ⟨input, [], none⟩ = (.ok secVencrypt, wire) ↔
      version.atLeast .v3_7 = false ∧ ∃ word rest, input = word ++ rest ∧ word.length = 4 ∧
        fromBeBytes word % 256 = secVencrypt.toNat ∧ wire = ⟨rest, [], none⟩ := by
  by_cases hv : version.atLeast .v3_7 = true
  · refine iff_of_false (fun h => ?_) fun h => by rw [hv] at h; cases h.1
    obtain ⟨offered, hc⟩ := securityType_chosen hv h
    exact choose_plain hc rfl
  · rw [securityType, if_neg hv, if_neg (by decide)]
    constructor
    · intro h
      obtain ⟨n, _, h1, h⟩ := bind_eq_ok.1 h
      obtain ⟨rest, hword, rfl⟩ := read_eq_ok.1 h1
      obtain ⟨word, heq, hlen, rfl⟩ := u32_eq_ok.1 hword
      split at h
      · obtain ⟨_, _, _, h⟩ := bind_eq_ok.1 h
        cases h
      · obtain ⟨hkind, rfl⟩ := pure_eq_ok.1 h
        refine ⟨by simpa using hv, word, rest, heq, hlen, ?_, rfl⟩
        rw [← hkind, UInt8.toNat_ofNat']
    · rintro ⟨-, word, rest, rfl, hlen, hkind, rfl⟩
      refine (bind_ok (read_eq_ok.2 ⟨rest, u32_eq_ok.2 ⟨word, rfl, hlen, rfl⟩, rfl⟩)).trans ?_
      -- only the low byte is looked at, so many words dictate VeNCrypt, but not 0
      have hne : fromBeBytes word ≠ secInvalid.toNat := by
        intro h0
        rw [h0] at hkind
        exact absurd hkind (by decide)
      rw [if_neg hne]
      refine pure_eq_ok.2 ⟨?_, rfl⟩
      apply UInt8.toNat_inj.1
      rw [UInt8.toNat_ofNat', hkind]

/-! ## The three promises -/

theorem does_authenticate {far : Far} {host : String} {ask : Ask} {kind : UInt8} (h : kind ≠ secVencrypt) :
    Does Ordinary (authenticate far host ask kind) := by
  rw [authenticate, if_neg h]
  exact does_ite (does_pure _) (does_ite ((does_vncAuthExchange far ask).bind fun _ => does_pure _) (does_fail _))

/-- What follows the type, and that only VeNCrypt starts TLS. -/
theorem tlsStarted_handshake {far : Far} {version : Version} {policy : Security} {host : String} {ask : Ask}
    {input : List UInt8} :
    (handshakeSecurity far version policy host ask ⟨input, [], none⟩).2.TlsStarted ↔
      ∃ wire, securityType version policy ⟨input, [], none⟩ = (.ok secVencrypt, wire) ∧ OffersX509 wire.input ∧
        far.ahead = 0 ∧ ∃ hello, far.hello host = .ok hello := by
  have hno : ¬(⟨input, [], none⟩ : Wire).TlsStarted := nofun
  have htype := (does_securityType version policy).noHello ⟨input, [], none⟩
  unfold handshakeSecurity
  cases h : securityType version policy ⟨input, [], none⟩ with
  | mk r wire =>
    rw [h] at htype
    have hno' : ¬wire.TlsStarted := fun hs => hno ((tlsStarted_iff htype).1 hs)
    cases r with
    | error e =>
      rw [bind_error h]
      exact iff_of_false hno' fun ⟨_, heq, _⟩ => nomatch heq
    | ok kind =>
      rw [bind_ok h, bind_ok (rfl : log (.runs kind) wire = (.ok (), _)),
        tlsStarted_bind (fun _ => (does_securityResult version kind).bind fun _ => does_pure _)]
      have hruns : ¬({ wire with log := wire.log ++ [.runs kind] } : Wire).TlsStarted :=
        fun hs => hno' ((tlsStarted_iff (does_log (E := NoHello) (e := .runs kind) rfl wire)).1 hs)
      -- the other types never get as far as the upgrade
      by_cases hkind : kind = secVencrypt
      · subst hkind
        refine (tlsStarted_vencrypt hruns).trans ?_
        rw [subtype_ok_iff]
        constructor
        · exact fun ⟨h1, h2⟩ => ⟨wire, rfl, h1, h2⟩
        · rintro ⟨wire', heq, h1, h2⟩
          cases heq
          exact ⟨h1, h2⟩
      · refine iff_of_false (fun hs => hruns ((tlsStarted_iff ((does_authenticate hkind).noHello _)).1 hs)) ?_
        rintro ⟨_, heq, _⟩
        cases heq
        exact hkind rfl

theorem tlsStarted_plain {far : Far} {version : Version} {host : String} {ask : Ask} {input : List UInt8} :
    (handshakeSecurity far version .plain host ask ⟨input, [], none⟩).2.TlsStarted ↔
      version.atLeast .v3_7 = false ∧ DictatesTls input ∧ far.ahead = 0 ∧ ∃ hello, far.hello host = .ok hello := by
  rw [tlsStarted_handshake]
  simp only [securityType_plain]
  constructor
  · rintro ⟨_, ⟨hv, word, rest, heq, hlen, hkind, rfl⟩, hoffers, hstart⟩
    exact ⟨hv, ⟨word, rest, heq, hlen, hkind, hoffers⟩, hstart⟩
  · rintro ⟨hv, ⟨word, rest, heq, hlen, hkind, hoffers⟩, hstart⟩
    exact ⟨_, ⟨hv, word, rest, heq, hlen, hkind, rfl⟩, hoffers, hstart⟩

/-- The certificate of the connection was shown to the user, who accepted it. -/
def Wire.Trusted (wire : Wire) : Prop := ∃ peer, wire.peer = some peer ∧ .askedTrust peer.fingerprint true ∈ wire.log

theorem Extends.keeps {wire wire' : Wire} (h : Extends E wire wire') (ht : wire.TlsStarted ∧ Wire.Trusted wire) :
    wire'.TlsStarted ∧ Wire.Trusted wire' := by
  obtain ⟨hpeer, es, hlog, -⟩ := h
  obtain ⟨⟨e, he, hhello⟩, peer, hsome, hasked⟩ := ht
  refine ⟨⟨e, ?_, hhello⟩, peer, hpeer.trans hsome, ?_⟩
  · rw [hlog]
    exact List.mem_append_left _ he
  · rw [hlog]
    exact List.mem_append_left _ hasked

theorem startTls_ok {far : Far} {host : String} {chosen : Nat} {wire wire' : Wire}
    (h : startTls far host chosen wire = (.ok (), wire')) : wire'.TlsStarted := by
  rcases startTls_log far host chosen wire with ⟨-, hello, -, hlog⟩ | ⟨hnot, -⟩
  · rw [h] at hlog
    refine ⟨.clientHello hello, ?_, rfl⟩
    rw [hlog]
    simp
  · -- without a ClientHello it fails
    unfold startTls at h
    split at h
    · cases h
    · cases hhello : far.hello host with
      | error e =>
        rw [hhello] at h
        cases h
      | ok hello => exact absurd ⟨by omega, hello, hhello⟩ hnot

theorem peerFingerprint_ok {wire wire' : Wire} {fingerprint : String}
    (h : peerFingerprint wire = (.ok fingerprint, wire')) :
    wire' = wire ∧ ∃ peer, wire.peer = some peer ∧ peer.fingerprint = fingerprint := by
  unfold peerFingerprint at h
  split at h
  · rename_i peer hpeer
    cases h
    exact ⟨rfl, peer, hpeer, rfl⟩
  · cases h

theorem tunnel_ok {far : Far} {host : String} {wire wire' : Wire} {r : Nat × String}
    (h : tunnel far host wire = (.ok r, wire')) :
    wire'.TlsStarted ∧ ∃ peer, wire'.peer = some peer ∧ peer.fingerprint = r.2 := by
  obtain ⟨chosen, _, _, h⟩ := bind_eq_ok.1 h
  obtain ⟨_, wire₁, hstart, h⟩ := bind_eq_ok.1 h
  obtain ⟨fingerprint, _, hpeer, h⟩ := bind_eq_ok.1 h
  obtain ⟨rfl, rfl⟩ := pure_eq_ok.1 h
  obtain ⟨rfl, hpeer⟩ := peerFingerprint_ok hpeer
  exact ⟨startTls_ok hstart, hpeer⟩

theorem vencrypt_ok {far : Far} {host : String} {ask : Ask} {wire wire' : Wire} {description : String}
    (h : vencrypt far host ask wire = (.ok description, wire')) : wire'.TlsStarted ∧ Wire.Trusted wire' := by
  obtain ⟨⟨chosen, fingerprint⟩, wire₁, htunnel, h⟩ := bind_eq_ok.1 h
  obtain ⟨hstarted, peer, hpeer, hfp⟩ := tunnel_ok htunnel
  obtain ⟨answer, wire₂, htrust, h⟩ := bind_eq_ok.1 h
  cases htrust
  split at h
  · cases h
  · rename_i hyes
    have htrusted : ask.trust wire₁.log fingerprint = true := by simpa using hyes
    have hexchange := does_subtypeExchange far ask chosen
      { wire₁ with log := wire₁.log ++ [.askedTrust fingerprint (ask.trust wire₁.log fingerprint)] }
    rw [h] at hexchange
    refine hexchange.keeps ⟨?_, peer, hpeer, ?_⟩
    · obtain ⟨e, he, hhello⟩ := hstarted
      exact ⟨e, List.mem_append_left _ he, hhello⟩
    · rw [hfp, htrusted]
      simp

/-- `require` is TLS and a certificate that was accepted. -/
theorem handshake_require {far : Far} {version : Version} {host : String} {ask : Ask} {wire wire' : Wire}
    {description : String} (h : handshakeSecurity far version .require host ask wire = (.ok description, wire')) :
    wire'.TlsStarted ∧ Wire.Trusted wire' := by
  obtain ⟨kind, _, htype, h⟩ := bind_eq_ok.1 h
  obtain rfl := securityType_require htype
  obtain ⟨_, _, hlog, h⟩ := bind_eq_ok.1 h
  cases hlog
  obtain ⟨_, wire₁, hvencrypt, h⟩ := bind_eq_ok.1 h
  obtain ⟨_, wire₂, hresult, h⟩ := bind_eq_ok.1 h
  obtain ⟨rfl, rfl⟩ := pure_eq_ok.1 h
  have hquiet := does_securityResult (E := NoHello) version secVencrypt wire₁
  rw [hresult] at hquiet
  exact hquiet.keeps (vencrypt_ok hvencrypt)

/-! ## Two users -/

/-- What comes after the answer does not matter. -/
theorem beforeTrust_append {log es es' : List Effect} {e : Effect} (h : e.trusted = true) :
    beforeTrust (log ++ [e] ++ es) = beforeTrust (log ++ [e] ++ es') := by
  unfold beforeTrust
  induction log with
  | nil => simp [h]
  | cons x log ih =>
    simp only [List.cons_append, List.takeWhile_cons]
    split
    · rw [ih]
    · rfl

/-- Until the certificate is accepted, what VeNCrypt does is the same whatever
credentials are entered. -/
theorem vencrypt_same {ask ask' : Ask} (hask : ask'.trust = ask.trust) (far : Far) (host : String) (wire : Wire) :
    beforeTrust (vencrypt far host ask' wire).2.log = beforeTrust (vencrypt far host ask wire).2.log := by
  unfold vencrypt
  cases h : tunnel far host wire with
  | mk r wire₁ =>
    cases r with
    | error e => rw [bind_error h, bind_error h]
    | ok r =>
      obtain ⟨chosen, fingerprint⟩ := r
      rw [bind_ok h, bind_ok h]
      simp only
      rw [bind_ok (rfl : askTrust ask' fingerprint wire₁ = (.ok _, _)),
        bind_ok (rfl : askTrust ask fingerprint wire₁ = (.ok _, _)), hask]
      -- both users are shown the same certificate after the same log, and answer alike
      cases htrust : ask.trust wire₁.log fingerprint with
      | false => rfl
      | true =>
        obtain ⟨-, es, hlog, -⟩ := does_subtypeExchange far ask chosen
          { wire₁ with log := wire₁.log ++ [.askedTrust fingerprint true] }
        obtain ⟨-, es', hlog', -⟩ := does_subtypeExchange far ask' chosen
          { wire₁ with log := wire₁.log ++ [.askedTrust fingerprint true] }
        refine Eq.trans (congrArg beforeTrust hlog') (Eq.trans ?_ (congrArg beforeTrust hlog).symm)
        exact beforeTrust_append rfl

theorem log_bind {p : Handshake α} {f : α → Handshake β} (hf : ∀ a, Does (fun _ => False) (f a)) (wire : Wire) :
    ((p >>= f) wire).2.log = (p wire).2.log := by
  cases h : p wire with
  | mk r wire' =>
    cases r with
    | error e => rw [bind_error h]
    | ok a =>
      obtain ⟨-, es, hlog, hes⟩ := hf a wire'
      rw [bind_ok h, hlog, List.eq_nil_iff_forall_not_mem.2 hes, List.append_nil]

/-- The log once a type is run. -/
theorem handshake_log {far : Far} {version : Version} {policy : Security} {host : String} {ask : Ask}
    {wire wire' : Wire}
    {kind : UInt8} (h : securityType version policy wire = (.ok kind, wire')) :
    (handshakeSecurity far version policy host ask wire).2.log =
      (authenticate far host ask kind { wire' with log := wire'.log ++ [.runs kind] }).2.log := by
  unfold handshakeSecurity
  rw [bind_ok h, bind_ok (rfl : log (.runs kind) wire' = (.ok (), _))]
  exact log_bind (fun _ => (does_securityResult version kind).bind fun _ => does_pure _) _

/-- The log names the type that was run. -/
theorem runs_unique {far : Far} {version : Version} {policy : Security} {host : String} {ask : Ask} {input : List UInt8}
    {wire : Wire} {kind : UInt8} (h : securityType version policy ⟨input, [], none⟩ = (.ok kind, wire))
    (hruns : .runs secVencrypt ∈ (handshakeSecurity far version policy host ask ⟨input, [], none⟩).2.log) :
    kind = secVencrypt := by
  by_contra hne
  have hauth : Does Ordinary (authenticate far host ask kind) := does_authenticate hne
  obtain ⟨-, es, hlog, hes⟩ := hauth { wire with log := wire.log ++ [.runs kind] }
  obtain ⟨-, es', hlog', hes'⟩ := does_securityType version policy ⟨input, [], none⟩
  rw [h] at hlog'
  rw [handshake_log h, hlog, hlog'] at hruns
  simp only [List.nil_append, List.mem_append, List.mem_singleton, Effect.runs.injEq] at hruns
  rcases hruns with (hmem | heq) | hmem
  · cases hes' _ hmem
  · exact hne heq.symm
  · cases hes _ hmem

theorem handshake_same {far : Far} {version : Version} {policy : Security} {host : String} {ask ask' : Ask}
    {input : List UInt8} (hask : ask'.trust = ask.trust)
    (hruns : .runs secVencrypt ∈ (handshakeSecurity far version policy host ask ⟨input, [], none⟩).2.log) :
    beforeTrust (handshakeSecurity far version policy host ask' ⟨input, [], none⟩).2.log =
      beforeTrust (handshakeSecurity far version policy host ask ⟨input, [], none⟩).2.log := by
  cases h : securityType version policy ⟨input, [], none⟩ with
  | mk r wire =>
    cases r with
    | error e => rw [handshakeSecurity, handshakeSecurity, bind_error h, bind_error h]
    | ok kind =>
      obtain rfl := runs_unique h hruns
      rw [handshake_log h, handshake_log h]
      exact vencrypt_same hask far host _

/-- What the policy promises of a handshake with a server that sends `input`. -/
structure Honours (far : Far) (version : Version) (policy : Security) (host : String) (ask : Ask) (input : List UInt8) :
    Prop where
  require : policy = .require → ∀ description wire,
    handshakeSecurity far version policy host ask ⟨input, [], none⟩ = (.ok description, wire) →
    wire.TlsStarted ∧ Wire.Trusted wire
  plain : policy = .plain → ¬(handshakeSecurity far version policy host ask ⟨input, [], none⟩).2.TlsStarted
  vencrypt : .runs secVencrypt ∈ (handshakeSecurity far version policy host ask ⟨input, [], none⟩).2.log →
    ∀ ask' : Ask, ask'.trust = ask.trust →
      beforeTrust (handshakeSecurity far version policy host ask' ⟨input, [], none⟩).2.log =
        beforeTrust (handshakeSecurity far version policy host ask ⟨input, [], none⟩).2.log

/-- Every promise is kept but one: before 3.7 a server dictates VeNCrypt, and is
followed, also where the policy is never to use TLS. -/
theorem honours_iff (far : Far) (version : Version) (policy : Security) (host : String) (ask : Ask)
    (input : List UInt8) :
    Honours far version policy host ask input ↔
      ¬(policy = .plain ∧ version.atLeast .v3_7 = false ∧ DictatesTls input ∧ far.ahead = 0 ∧
        ∃ hello, far.hello host = .ok hello) := by
  constructor
  · rintro h ⟨rfl, hv, hdictates, hstart⟩
    exact h.plain rfl (tlsStarted_plain.2 ⟨hv, hdictates, hstart⟩)
  · intro hnot
    refine ⟨?_, ?_, fun hruns ask' hask => handshake_same hask hruns⟩
    · rintro rfl description wire h
      exact handshake_require h
    · rintro rfl hstarted
      exact hnot ⟨rfl, tlsStarted_plain.1 hstarted⟩

/-- A TLS library that gets as far as its ClientHello, and a user who enters
nothing and trusts nothing. -/
def someFar : Far := ⟨0, fun _ => .ok [0x16], fun _ => .error (.io .unexpectedEof), fun _ block => block⟩

def nobody : Ask := ⟨fun _ _ => none, fun _ _ => false⟩

/-- Never TLS, and RFB 3.3: the server dictates 19 and offers 260. -/
theorem plain_starts_tls : ¬Honours someFar .v3_3 .plain "far" nobody [0, 0, 0, 19, 0, 2, 0, 1, 0, 0, 1, 4] ∧
    handshakeSecurity someFar .v3_3 .plain "far" nobody ⟨[0, 0, 0, 19, 0, 2, 0, 1, 0, 0, 1, 4], [], none⟩ =
      (.error eof, ⟨[], [.runs 19, .wrote [0], .wrote [2], .wrote [0, 0, 1, 4], .clientHello [0x16]], none⟩) := by
  have hrun : handshakeSecurity someFar .v3_3 .plain "far" nobody ⟨[0, 0, 0, 19, 0, 2, 0, 1, 0, 0, 1, 4], [], none⟩ =
      (.error eof, ⟨[], [.runs 19, .wrote [0], .wrote [2], .wrote [0, 0, 1, 4], .clientHello [0x16]], none⟩) := by
    rfl
  refine ⟨fun h => h.plain rfl ?_, hrun⟩
  rw [hrun]
  exact ⟨.clientHello [0x16], by simp, rfl⟩

end Handshake

end Vento.Rfb
