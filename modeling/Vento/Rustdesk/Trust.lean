import Mathlib.Data.List.Induction
import Vento.Rustdesk.Session
/-!
# No password before the question

In a session reached by id every exit of the key exchange leaves a question, and a login with a
password follows a yes to it (`password_protected`): to the fingerprint of a key that the rendezvous
server's key signed for the dialled id, and that signed the box key the session is sealed to; or to
going on unverified.
-/

namespace Vento.Rustdesk

open Vento.Lib

section
variable (c : Sodium) (config : Config)

/-- The chain from the configured key to the box key of this connection; `signs` is what a key's
holder signed. -/
def Vouched (signs : Key → List UInt8 → Prop) (peerKey box : Key) : Prop :=
  ∃ serverKey introduction own v v', configuredKey config.key = .ok serverKey ∧
    signs serverKey introduction ∧ c.parseIdPk introduction = .ok ⟨config.address, peerKey.bytes, v⟩ ∧
    signs peerKey own ∧ c.parseIdPk own = .ok ⟨config.address, box.bytes, v'⟩

/-- Both directions have a cipher, from a session key that was sealed to `box`. -/
def SealedTo (box : Key) (log : List Event) : Prop :=
  ∃ (fresh : Fresh) (key : List UInt8) (advertised picked : UInt32) (keys : SessionKeys),
    .sealed box fresh.boxPk key picked ∈ log ∧ .ciphers keys ∈ log ∧
    c.boxEasy fresh.session.bytes box fresh.boxSk = .ok key ∧
    sessionKeys c fresh.session ⟨fresh.boxPk, box, advertised, picked⟩ = .ok keys

/-- The user has agreed: to the peer's key, in a session sealed to it, or to none. -/
def Protected (signs : Key → List UInt8 → Prop) (log : List Event) : Prop :=
  (∃ peerKey box, Vouched c config signs peerKey box ∧ SealedTo c box log ∧
      .trusted (fingerprint c peerKey) true ∈ log) ∨
    ∃ why, .unverified why true ∈ log

variable {c config} {signs : Key → List UInt8 → Prop}

theorem SealedTo.mono {box : Key} {log log' : List Event} (h : SealedTo c box log) (hl : log ⊆ log') :
    SealedTo c box log' := by
  obtain ⟨fresh, key, advertised, picked, keys, hs, hc, hbox, hkeys⟩ := h
  exact ⟨fresh, key, advertised, picked, keys, hl hs, hl hc, hbox, hkeys⟩

theorem Protected.mono {log log' : List Event} (h : Protected c config signs log) (hl : log ⊆ log') :
    Protected c config signs log' := by
  rcases h with ⟨peerKey, box, hv, hs, ht⟩ | ⟨why, hw⟩
  · exact Or.inl ⟨peerKey, box, hv, hs.mono hl, hl ht⟩
  · exact Or.inr ⟨why, hl hw⟩

/-! ## The key exchange -/

theorem inTheClear_ok {why : String} {expects sent : Bool} {v : Verified} {events : List Event}
    (h : inTheClear why expects sent = .ok (v, events)) :
    v = .clear why ∧ ∀ e ∈ events, ∀ digest, e ≠ .login digest := by
  unfold inTheClear at h
  split at h
  · cases h
    exact ⟨rfl, by simp⟩
  · cases h

theorem sealTo_ok {peerKey : Key} {box : Signed} {fresh : Fresh} {sent : Bool} {v : Verified} {events : List Event}
    (h : sealTo c peerKey box fresh sent = .ok (v, events)) :
    (∃ picked, v = .encrypted peerKey picked) ∧ SealedTo c box.key events ∧
      ∀ e ∈ events, ∀ digest, e ≠ .login digest := by
  unfold sealTo at h
  cases hseal : sealSessionKey c fresh box.key with
  | error e =>
    rw [hseal] at h
    cases h
  | ok key =>
    rw [hseal] at h
    cases hkeys : sessionKeys c fresh.session ⟨fresh.boxPk, box.key, box.kxVersion, kxVersionFor box.kxVersion⟩ with
    | error e =>
      simp only [hkeys, bind, Except.bind] at h
      cases h
    | ok keys =>
      simp only [hkeys, bind, Except.bind] at h
      split at h
      · cases h
        refine ⟨⟨_, rfl⟩, ⟨fresh, key, box.kxVersion, _, keys, by simp, by simp, ?_, hkeys⟩, by simp⟩
        unfold sealSessionKey at hseal
        split at hseal
        · cases hseal
        · rename_i hbox
          cases hseal
          exact hbox
      · cases h

theorem vouched_ok {serverKey peerKey : Key} {signedIdPk : List UInt8}
    (h : vouched c config serverKey signedIdPk = .ok peerKey) :
    ∃ v, openIdPk c signedIdPk serverKey config.address = .ok ⟨peerKey, v⟩ := by
  unfold vouched at h
  split at h
  · cases h
  · split at h
    · cases h
    · rename_i signed hs
      cases h
      exact ⟨signed.kxVersion, hs⟩

/-- What the key exchange comes to: a chain that checks out and a session sealed to its end, or a
reason why there is none. -/
theorem secure_ok (hsound : ∀ signed key m, c.signOpen signed key = some m → signs key m) {signedIdPk : List UInt8}
    {next : Item} {fresh : Fresh} {sent : Bool} {v : Verified} {events : List Event}
    (h : secure c config signedIdPk next fresh sent = .ok (v, events)) :
    ((∃ peerKey picked box, v = .encrypted peerKey picked ∧ Vouched c config signs peerKey box ∧
        SealedTo c box events) ∨
      ∃ why, v = .clear why) ∧ ∀ e ∈ events, ∀ digest, e ≠ .login digest := by
  unfold secure at h
  split at h
  · cases h
  · rename_i serverKey hkey
    split at h
    · exact ⟨Or.inr ⟨_, (inTheClear_ok h).1⟩, (inTheClear_ok h).2⟩
    · rename_i peerKey hpeer
      split at h
      · cases h
      · rename_i id
        split at h
        · exact ⟨Or.inr ⟨_, (inTheClear_ok h).1⟩, (inTheClear_ok h).2⟩
        · rename_i box hbox
          obtain ⟨⟨picked, rfl⟩, hsealed, hlogin⟩ := sealTo_ok h
          obtain ⟨w, hw⟩ := vouched_ok hpeer
          obtain ⟨introduction, hopen, hparse⟩ := openIdPk_ok c hw
          obtain ⟨own, hopen', hparse'⟩ := openIdPk_ok c hbox
          refine ⟨Or.inl ⟨peerKey, picked, box.key, rfl, ?_, hsealed⟩, hlogin⟩
          exact ⟨serverKey, introduction, own, _, _, hkey, hsound _ _ _ hopen, hparse, hsound _ _ _ hopen', hparse'⟩
      · exact ⟨Or.inr ⟨_, (inTheClear_ok h).1⟩, (inTheClear_ok h).2⟩

/-! ## The session -/

namespace Session

/-- Past the questions. -/
def past : Pc → Bool
  | .asking _ | .joining _ _ | .loop _ => true
  | _ => false

/-- Between the key exchange and the questions. -/
def known : Pc → Bool
  | .hash | .question _ => true
  | _ => false

/-- What the questions are about is on record, and every login with a password follows the answer. -/
structure Asked (c : Sodium) (config : Config) (signs : Key → List UInt8 → Prop) (s : Session) : Prop where
  notDirect : s.pc ≠ .direct
  verified : known s.pc = true →
    (∃ peerKey picked box, s.verified = some (.encrypted peerKey picked) ∧ Vouched c config signs peerKey box ∧
        SealedTo c box s.log) ∨
      ∃ why, s.verified = some (.clear why)
  agreed : past s.pc = true → Protected c config signs s.log
  logins : ∀ pre digest post, s.log = pre ++ .login digest :: post → digest ≠ [] → Protected c config signs pre

variable {s s' : Session}

/-- Nothing is added to the record, and no question is passed. -/
theorem Asked.same (h : Asked c config signs s) (hl : s'.log = s.log) (hd : s'.pc ≠ .direct)
    (hk : known s'.pc = true → known s.pc = true ∧ s'.verified = s.verified)
    (hp : past s'.pc = true → past s.pc = true) : Asked c config signs s' := by
  refine ⟨hd, ?_, ?_, ?_⟩
  · intro hk'
    obtain ⟨hk, hv⟩ := hk hk'
    rw [hv, hl]
    exact h.verified hk
  · intro hp'
    rw [hl]
    exact h.agreed (hp hp')
  · rw [hl]
    exact h.logins

theorem logins_snoc {log : List Event} {e : Event}
    (h : ∀ pre digest post, log = pre ++ .login digest :: post → digest ≠ [] → Protected c config signs pre)
    (he : ∀ digest, e = .login digest → Protected c config signs log) :
    ∀ pre digest post, log ++ [e] = pre ++ .login digest :: post → digest ≠ [] → Protected c config signs pre := by
  intro pre digest post hs hne
  rcases snoc_eq_append_cons.mp hs with ⟨rfl, rfl, -⟩ | ⟨post', hl, -⟩
  · exact he digest rfl
  · exact h pre digest post' hl hne

theorem logins_append {log events : List Event}
    (h : ∀ pre digest post, log = pre ++ .login digest :: post → digest ≠ [] → Protected c config signs pre)
    (he : ∀ e ∈ events, ∀ digest, e ≠ .login digest) :
    ∀ pre digest post, log ++ events = pre ++ .login digest :: post → digest ≠ [] → Protected c config signs pre := by
  induction events using List.reverseRecOn with
  | nil =>
    rw [List.append_nil]
    exact h
  | append_singleton events e ih =>
    rw [← List.append_assoc]
    refine logins_snoc (ih fun e' he' => he e' (List.mem_append_left _ he')) ?_
    exact fun digest hd => absurd hd (he e (by simp) digest)

theorem handleMessage_log (s : Session) (hash : Hash) (m : Message) : (s.handleMessage hash m).log = s.log := by
  unfold handleMessage
  split
  · split <;> rfl
  · split <;> rfl
  · rfl
  · rfl

theorem handleMessage_pc (s : Session) (hash : Hash) (m : Message) :
    (s.handleMessage hash m).pc = s.pc ∨ (s.handleMessage hash m).pc = .asking hash ∨
      ∃ e, (s.handleMessage hash m).pc = .finished e := by
  unfold handleMessage
  split
  · split
    · exact Or.inl rfl
    · exact Or.inr (Or.inr ⟨_, rfl⟩)
  · split
    · exact Or.inr (Or.inl rfl)
    · exact Or.inl rfl
    · exact Or.inr (Or.inr ⟨_, rfl⟩)
  · exact Or.inr (Or.inr ⟨_, rfl⟩)
  · exact Or.inl rfl

theorem testDelay_frame (s : Session) (delay : Delay) :
    (s.testDelay delay).log = s.log ∧ (s.testDelay delay).pc = s.pc := by
  unfold testDelay
  split <;> exact ⟨rfl, rfl⟩

/-- A message that is handled leaves the record as it is, and the loop goes on, asks, or is over. -/
theorem handle_frame (s : Session) (hash : Hash) (item : Item) :
    (s.handle hash item).log = s.log ∧
      ((s.handle hash item).pc = s.pc ∨ (s.handle hash item).pc = .asking hash ∨ ∃ e, (s.handle hash item).pc = .finished e) := by
  unfold handle
  split
  · exact ⟨rfl, Or.inr (Or.inr ⟨_, rfl⟩)⟩
  · exact ⟨(testDelay_frame s _).1, Or.inl (testDelay_frame s _).2⟩
  · exact ⟨handleMessage_log _ _ _, handleMessage_pc _ _ _⟩

theorem Asked.handle (h : Asked c config signs s) {hash : Hash} (hpc : s.pc = .loop hash) (item : Item) :
    Asked c config signs (s.handle hash item) := by
  obtain ⟨hl, hp⟩ := handle_frame s hash item
  have hpast : past s.pc = true := by rw [hpc]; rfl
  rcases hp with hp | hp | ⟨e, hp⟩
  · exact h.same hl (by rw [hp, hpc]; nofun) (fun hk => by rw [hp, hpc] at hk; cases hk) fun _ => hpast
  · exact h.same hl (by rw [hp]; nofun) (fun hk => by rw [hp] at hk; cases hk) fun _ => hpast
  · exact h.same hl (by rw [hp]; nofun) (fun hk => by rw [hp] at hk; cases hk) fun _ => hpast

theorem heard_frame (s : Session) (item : Item) : (s.heard item).log = s.log ∧ (s.heard item).pc = s.pc ∧
    (s.heard item).verified = s.verified := by
  unfold heard
  split
  · exact ⟨rfl, rfl, rfl⟩
  · unfold testDelay
    split <;> exact ⟨rfl, rfl, rfl⟩
  · exact ⟨rfl, rfl, rfl⟩

/-- The answer to the question, and the login that follows a yes. -/
theorem Asked.agree (h : Asked c config signs s) {hash : Hash} (hpc : s.pc = .question hash) (answer : Bool) :
    Asked c config signs (s.agree c config hash answer) := by
  have hver := h.verified (by rw [hpc]; rfl)
  -- one question, whose answer decides
  obtain ⟨e, he, hlogin, hyes⟩ : ∃ e, asks c answer s.verified = (answer, [e]) ∧ (∀ digest, e ≠ .login digest) ∧
      (answer = true → Protected c config signs (s.log ++ [e])) := by
    rcases hver with ⟨peerKey, picked, box, hv, hvouched, hsealed⟩ | ⟨why, hv⟩
    · rw [hv]
      refine ⟨_, rfl, nofun, ?_⟩
      rintro rfl
      exact Or.inl ⟨peerKey, box, hvouched, hsealed.mono (List.subset_append_left _ _), by simp⟩
    · rw [hv]
      refine ⟨_, rfl, nofun, ?_⟩
      rintro rfl
      exact Or.inr ⟨why, by simp⟩
  have hlogs := logins_snoc h.logins fun digest hd => absurd hd (hlogin digest)
  unfold Session.agree
  dsimp only
  rw [he]
  dsimp only
  cases answer with
  | false => exact ⟨nofun, nofun, nofun, hlogs⟩
  | true =>
    have hpro := hyes rfl
    have hlogs' : ∀ digest pre d post, s.log ++ [e] ++ [.login digest] = pre ++ .login d :: post → d ≠ [] →
        Protected c config signs pre := fun digest => logins_snoc hlogs fun _ _ => hpro
    rw [if_neg nofun]
    split
    · exact ⟨nofun, nofun, fun _ => hpro.mono (List.subset_append_left _ _), hlogs' _⟩
    · exact ⟨nofun, nofun, fun _ => hpro.mono (List.subset_append_left _ _), hlogs' _⟩

theorem Asked.joined (h : Asked c config signs s) {hash : Hash} {answer : Prompted} (hpc : s.pc = .joining hash answer)
    (ok : Bool) : Asked c config signs (s.joined c hash answer ok) := by
  have hpro := h.agreed (by rw [hpc]; rfl)
  unfold Session.joined
  dsimp only
  split
  · exact ⟨nofun, nofun, nofun, h.logins⟩
  · split
    · exact ⟨nofun, nofun, fun _ => hpro.mono (List.subset_append_left _ _), logins_snoc h.logins fun _ _ => hpro⟩
    · exact ⟨nofun, nofun, fun _ => hpro, h.logins⟩
    · exact ⟨nofun, nofun, nofun, h.logins⟩

theorem Asked.step (hsound : ∀ signed key m, c.signOpen signed key = some m → signs key m)
    (h : Asked c config signs s) {a : Act} (hs : s.step c config a = some s') : Asked c config signs s' := by
  -- the steps that add nothing and pass no question
  have still : ∀ {t : Session}, t.log = s.log → t.pc = s.pc → t.verified = s.verified → Asked c config signs t :=
    fun hl hp hv => h.same hl (hp ▸ h.notDirect) (fun hk => ⟨hp ▸ hk, hv⟩) fun hpast => hp ▸ hpast
  have ends : ∀ {e : Error}, Asked c config signs { s with pc := .finished e } := h.same rfl nofun nofun nofun
  have answers : ∀ {hash : Hash} {p : Prompted}, s.pc = .asking hash →
      Asked c config signs { s with pc := .joining hash p, answered := true } :=
    fun hpc => h.same rfl nofun nofun fun _ => by rw [hpc]; rfl
  cases stepped c config hs with
  | refused hpc hsec => exact ends
  | secured hpc hsec =>
    obtain ⟨hv, hlogin⟩ := secure_ok hsound hsec
    refine ⟨nofun, ?_, nofun, logins_append h.logins hlogin⟩
    intro _
    rcases hv with ⟨peerKey, picked, box, rfl, hv, hsealed⟩ | ⟨why, rfl⟩
    · exact Or.inl ⟨peerKey, picked, box, rfl, hv, hsealed.mono (List.subset_append_right _ _)⟩
    · exact Or.inr ⟨why, rfl⟩
  | greeted hpc => exact absurd hpc h.notDirect
  | unread hpc => exact ends
  | challenged hpc => exact h.same rfl nofun (fun _ => ⟨by rw [hpc]; rfl, rfl⟩) nofun
  | unhashed hpc => exact h
  | read hpc he =>
    apply Asked.handle
    · exact still rfl rfl rfl
    · exact hpc
  | question hpc => exact h.agree hpc _
  | take hpc he =>
    apply Asked.handle
    · exact still rfl rfl rfl
    · exact hpc
  | fails hpc => exact ends
  | again hpc => exact h
  | answer hpc => exact answers hpc
  | cancel hpc => exact answers hpc
  | withdrawn hpc hf => exact answers hpc
  | spawn ht => exact still rfl rfl rfl
  | check ht => exact still rfl rfl rfl
  | quiet ht => exact still rfl rfl rfl
  | begins ht => exact still rfl rfl rfl
  | broken ht => exact still rfl rfl rfl
  | frame ht =>
    obtain ⟨hl, hpc, hv⟩ := heard_frame (s.receives _) _
    exact still hl hpc hv
  | join hpc ht => exact h.joined hpc _

end Session

/-- In every run of a session reached by id, whatever the server, the peer and the user do, a login
with a password follows a yes to the key that the whole chain vouches for, with both directions
encrypted under keys sealed to its end, or a yes to going on unverified. -/
theorem password_protected (hsound : ∀ signed key m, c.signOpen signed key = some m → signs key m)
    (signedIdPk : List UInt8) (acts : List Act) (s : Session)
    (hr : run (Session.step c config) (Session.start (some signedIdPk)) acts = some s) (pre : List Event)
    (digest : List UInt8) (post : List Event) (hl : s.log = pre ++ .login digest :: post) (hd : digest ≠ []) :
    Protected c config signs pre := by
  have h : Session.Asked c config signs s := by
    refine trace_inv_all (fun _ => Session.Asked c config signs) ?_ (fun _ _ _ _ hi hs => hi.step hsound hs) hr
    exact ⟨nofun, nofun, nofun, by simp [Session.start]⟩
  exact h.logins pre digest post hl hd

end

/-! ## One session

A server's key, a peer's and its box key, with what they signed, and this end's keys. -/

def aServerKey : Key := ⟨[0xf0, 0x28, 0x0a, 0xbb, 0x83, 0x45, 0xb4, 0xb8, 0x33, 0x07, 0x7c, 0xbd, 0xd6, 0x31, 0xbb, 0x8b, 0x6f, 0xa0,
  0x7e, 0x7d, 0x68, 0xcb, 0x3e, 0x5a, 0xf2, 0xc4, 0xfa, 0x16, 0x15, 0x89, 0xec, 0x05], by decide⟩

def aPeerKey : Key := ⟨[0x1e, 0x51, 0x1d, 0x67, 0x3b, 0x80, 0x57, 0xae, 0xdb, 0x73, 0x5f, 0xf5, 0xb2, 0xe8, 0x43, 0x1b, 0x89, 0x52,
  0x44, 0x0b, 0x4e, 0x4f, 0xdc, 0x80, 0x47, 0x43, 0x0d, 0xa0, 0xbf, 0x4c, 0xfd, 0x40], by decide⟩

def aBoxKey : Key := ⟨[0x36, 0x3c, 0x13, 0x04, 0x6f, 0x2b, 0xb1, 0xcd, 0x02, 0x6d, 0xb0, 0xca, 0x45, 0x17, 0xf1, 0x2f, 0xfd, 0xc3,
  0x41, 0x15, 0x87, 0x04, 0x1e, 0x06, 0x34, 0x4d, 0x28, 0xe7, 0x10, 0x89, 0x00, 0x44], by decide⟩

def aFresh : Fresh where
  boxPk := ⟨[0xf1, 0xe8, 0xf2, 0x8b, 0xe1, 0x7c, 0x8b, 0x60, 0x12, 0x16, 0x87, 0xe4, 0x02, 0xdc, 0x34, 0x87, 0x98, 0xc7,
  0x55, 0xd9, 0x94, 0xeb, 0x21, 0x90, 0x7c, 0xaa, 0xe2, 0x49, 0x5e, 0xa8, 0x93, 0x70], by decide⟩
  boxSk := ⟨[0xa6, 0x55, 0x6e, 0x48, 0x52, 0xe2, 0x63, 0x90, 0x53, 0xa3, 0x8b, 0x26, 0xfb, 0x4b, 0x2f, 0xd4, 0xcd, 0x61,
  0xa6, 0x40, 0x10, 0xc8, 0x0a, 0xb9, 0x9b, 0xef, 0x06, 0xed, 0xaf, 0x41, 0xdc, 0x06], by decide⟩
  session := ⟨[0x3f, 0x3a, 0xf1, 0xec, 0xeb, 0xbd, 0x14, 0x10, 0xab, 0x41, 0x7e, 0xc0, 0xd2, 0x7b, 0xbf, 0xcb, 0x5d, 0x34,
  0x0e, 0x17, 0x7a, 0xe1, 0x59, 0xb5, 0x9f, 0xc8, 0x62, 0x6c, 0x2d, 0xfd, 0x91, 0x75], by decide⟩

/-- The wire form of an `IdPk` of version 0 for the id 123456789. -/
def idPkBytes (pk : Key) : List UInt8 :=
  [0x0a, 0x09, 0x31, 0x32, 0x33, 0x34, 0x35, 0x36, 0x37, 0x38, 0x39, 0x12, 0x20] ++ pk.bytes

def introductionSignature : List UInt8 :=
  [0x66, 0x88, 0x00, 0xf7, 0x84, 0xc4, 0xc5, 0x2e, 0x32, 0x03, 0x71, 0xcc, 0x6d, 0x23, 0xea, 0x6a, 0xd8, 0x3b,
  0x8c, 0x62, 0x08, 0x23, 0x66, 0xb3, 0x65, 0x0b, 0x95, 0x15, 0xd1, 0x13, 0xfd, 0xac, 0x67, 0x19, 0x87, 0x63,
  0x15, 0xc2, 0xf0, 0x44, 0x4c, 0xd4, 0xfe, 0x57, 0x93, 0x5e, 0xb1, 0xe2, 0xec, 0x11, 0x71, 0xe4, 0xef, 0x43,
  0xd4, 0x19, 0x70, 0xe8, 0xcd, 0xa9, 0x50, 0xda, 0x3f, 0x01]

def ownSignature : List UInt8 :=
  [0x8a, 0x4f, 0x60, 0x93, 0xdc, 0xca, 0x2c, 0x1d, 0x02, 0x59, 0x5a, 0xc1, 0xaa, 0x15, 0xfb, 0x52, 0x6a, 0x98,
  0x71, 0x57, 0xb6, 0x62, 0xba, 0x37, 0x4d, 0x86, 0xef, 0x3c, 0xab, 0x1b, 0x55, 0x1a, 0xfd, 0x35, 0x1a, 0xab,
  0x36, 0xa3, 0x1d, 0xb6, 0x60, 0xf6, 0x03, 0xca, 0x30, 0xbc, 0xb8, 0x0b, 0x89, 0x15, 0x3c, 0x9a, 0x1b, 0xce,
  0x44, 0x89, 0xe3, 0x55, 0x48, 0xa5, 0xd5, 0x20, 0x0e, 0x0f]

def sealedKey : List UInt8 :=
  [0xd0, 0x88, 0x76, 0x55, 0x71, 0xe0, 0x44, 0xe5, 0xd1, 0x92, 0x51, 0xf3, 0xb7, 0xd7, 0x1c, 0x6c, 0xdf, 0x74,
  0x77, 0xa5, 0x75, 0x74, 0xaf, 0x98, 0x46, 0x84, 0xf9, 0x0d, 0x48, 0x00, 0x8a, 0xc4, 0x9b, 0x23, 0x96, 0x1a,
  0x6a, 0xf2, 0x1e, 0xdc, 0x30, 0x16, 0x9b, 0xaf, 0xdd, 0x88, 0x17, 0x8d]

/-- `sha256` of the peer's key, of the password and salt, and of that and the challenge. -/
def peerDigest : List UInt8 :=
  [0xfd, 0x5f, 0xe3, 0xfd, 0x2b, 0x11, 0x94, 0xea, 0x6a, 0xf5, 0x87, 0xc5, 0x4b, 0x25, 0x5a, 0x32, 0xcd, 0x8c,
  0x34, 0xd3, 0xde, 0xa0, 0xa3, 0xa9, 0xf4, 0xda, 0xc4, 0x4c, 0x0a, 0x27, 0xff, 0xd0]

def storedDigest : List UInt8 :=
  [0x1a, 0xc8, 0xab, 0xc0, 0xe0, 0x34, 0xc5, 0x03, 0x5e, 0x23, 0xa4, 0x7e, 0x38, 0xa1, 0xb8, 0x76, 0xa9, 0xd2,
  0x61, 0xa3, 0x5a, 0x36, 0xda, 0x79, 0xf4, 0x9c, 0x3e, 0x1f, 0x59, 0xb5, 0x95, 0xc5]

def loginDigest : List UInt8 :=
  [0xb9, 0x1c, 0x67, 0x9a, 0x3e, 0x99, 0x0a, 0xcd, 0xaf, 0x63, 0x70, 0xfe, 0xa7, 0xb6, 0x89, 0xea, 0x67, 0xef,
  0x2d, 0xa3, 0xf4, 0x67, 0x6a, 0xde, 0x46, 0xab, 0xf7, 0x45, 0x6b, 0x83, 0x53, 0x97]

/-- The functions, on what this session gives them. -/
def aSodium : Sodium where
  signOpen signed key :=
    if key = aServerKey ∧ signed = introductionSignature ++ idPkBytes aPeerKey then some (idPkBytes aPeerKey)
    else if key = aPeerKey ∧ signed = ownSignature ++ idPkBytes aBoxKey then some (idPkBytes aBoxKey)
    else none
  parseIdPk m := if m.take 13 = (idPkBytes aPeerKey).take 13 then .ok ⟨"123456789", m.drop 13, 0⟩ else .error "not one"
  boxEasy m pk sk :=
    if m = aFresh.session.bytes ∧ pk = aBoxKey ∧ sk = aFresh.boxSk then .ok sealedKey else .error "not this one"
  genericHash _ _ := .error "not in version 0"
  sha256 m :=
    if m = aPeerKey.bytes then peerDigest
    else if m = [0x70, 0x77, 0x73] then storedDigest
    else if m = storedDigest ++ [0x63] then loginDigest
    else []

def aConfig : Config := ⟨"123456789", "8CgKu4NFtLgzB3y91jG7i2+gfn1oyz5a8sT6FhWJ7AU=".toList, some [0x70, 0x77]⟩

def acts : List Act :=
  [.secured (.ok (.signedId (ownSignature ++ idPkBytes aBoxKey))) aFresh true, .read (.ok (.hash ⟨[0x73], [0x63]⟩)),
    .question true]

/-- A session with a password, encrypted and trusted. -/
theorem password_protected_encrypted :
    ∃ s, run (Session.step aSodium aConfig)
        (Session.start (some (introductionSignature ++ idPkBytes aPeerKey))) acts = some s ∧
      ∃ pre, s.log = pre ++ [.login loginDigest] ∧
        Protected aSodium aConfig (fun key m => ∃ signed, aSodium.signOpen signed key = some m) pre := by
  have hlog : (run (Session.step aSodium aConfig)
      (Session.start (some (introductionSignature ++ idPkBytes aPeerKey))) acts).map Session.log =
        some [.sealed aBoxKey aFresh.boxPk sealedKey 0, .ciphers ⟨aFresh.session, aFresh.session⟩,
          .trusted (fingerprint aSodium aPeerKey) true, .login loginDigest] := by decide +kernel
  obtain ⟨s, hr, hs⟩ := Option.map_eq_some_iff.mp hlog
  refine ⟨s, hr, [_, _, _], hs, ?_⟩
  exact password_protected (fun signed key m h => ⟨signed, h⟩) _ acts s hr _ _ [] hs (by decide)

end Vento.Rustdesk
