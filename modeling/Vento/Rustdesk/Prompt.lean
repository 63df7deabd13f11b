import Vento.Rustdesk.Session
/-!
# The prompt and the peer

What is read while the password prompt is open reaches the loop once and in order, and the timing
messages are echoed once, whatever crosses what. A prompt is taken back by what settles the login;
but the loop puts another one for a wrong password without looking at what is queued behind it:
`prompt_iff` says that this is the only way a prompt stands over a settled login, or a frame is read
from the middle of one.
-/

namespace Vento.Rustdesk

open Vento.Lib

/-- Anything but a timing message. -/
def notDelay : Item → Bool
  | .ok (.testDelay _) => false
  | _ => true

/-- A timing message that the peer started. -/
def startedByPeer : Item → Option Delay
  | .ok (.testDelay delay) => if delay.fromClient then none else some delay
  | _ => none

/-- What settles the login: the peer's acceptance, an error other than about the password, a close
reason, or a read error. -/
def settles : Item → Bool
  | .error _ => true
  | .ok m => endsThePrompt m

namespace Session

/-- In `ask_password`. -/
def prompting : Pc → Bool
  | .asking _ | .joining _ _ => true
  | _ => false

/-- Past the first login. -/
def begun : Pc → Bool
  | .dialled _ | .direct | .hash | .question _ => false
  | _ => true

/-! ## Every message once, and in order -/

/-- What was read and is not a timing message is handled, queued, or with the thread, in that order;
and every timing message of the peer's is echoed. -/
structure InOrder (s : Session) : Prop where
  order : s.received.filter notDelay = s.handled ++ s.early ++ s.read
  echoed : s.echoed = s.received.filterMap startedByPeer
  idle : prompting s.pc = false → s.read = [] ∧ s.thread = .none
  first : begun s.pc = false → s.early = [] ∧ s.received = [] ∧ s.halfRead = false ∧ s.torn = false

variable {s s' : Session} {c : Sodium} {config : Config}

theorem InOrder.notDelay_early (h : InOrder s) : ∀ i ∈ s.early, notDelay i = true := by
  intro i hi
  have hmem : i ∈ s.received.filter notDelay := by
    rw [h.order]
    simp [hi]
  exact (List.mem_filter.mp hmem).2

/-- The loop takes what is not a timing message. -/
theorem handle_of_notDelay (s : Session) (hash : Hash) {item : Item} (hn : notDelay item = true) :
    (s.handle hash item).handled = s.handled ++ [item] ∧ (s.handle hash item).echoed = s.echoed := by
  cases item with
  | error e => exact ⟨rfl, rfl⟩
  | ok m =>
    cases m with
    | testDelay delay => cases hn
    | peerInfo displays current =>
      simp only [handle, handleMessage]
      split <;> exact ⟨rfl, rfl⟩
    | loginError why =>
      simp only [handle, handleMessage]
      split <;> exact ⟨rfl, rfl⟩
    | _ => exact ⟨rfl, rfl⟩

/-- Handling a message leaves the queue and what was received as they are; the loop goes on, is
over, or asks, with nothing read and nothing fired. -/
theorem handle_cases (hash : Hash) (item : Item) :
    (s.handle hash item).early = s.early ∧ (s.handle hash item).received = s.received ∧
      (s.handle hash item).halfRead = s.halfRead ∧ (s.handle hash item).torn = s.torn ∧
      (((s.handle hash item).pc = s.pc ∨ ∃ e, (s.handle hash item).pc = .finished e) ∧
          (s.handle hash item).read = s.read ∧ (s.handle hash item).thread = s.thread ∨
        (∃ why, item = .ok (.loginError why) ∧ loginError why = .password) ∧ (s.handle hash item).pc = .asking hash ∧
          (s.handle hash item).read = [] ∧ (s.handle hash item).thread = .starting ∧
          (s.handle hash item).fired = false) := by
  cases item with
  | error e => exact ⟨rfl, rfl, rfl, rfl, Or.inl ⟨Or.inr ⟨_, rfl⟩, rfl, rfl⟩⟩
  | ok m =>
    cases m with
    | testDelay delay =>
      simp only [handle, testDelay]
      split <;> exact ⟨rfl, rfl, rfl, rfl, Or.inl ⟨Or.inl rfl, rfl, rfl⟩⟩
    | peerInfo displays current =>
      simp only [handle, handleMessage]
      split
      · exact ⟨rfl, rfl, rfl, rfl, Or.inl ⟨Or.inl rfl, rfl, rfl⟩⟩
      · exact ⟨rfl, rfl, rfl, rfl, Or.inl ⟨Or.inr ⟨_, rfl⟩, rfl, rfl⟩⟩
    | loginError why =>
      simp only [handle, handleMessage]
      split
      · rename_i hw
        exact ⟨rfl, rfl, rfl, rfl, Or.inr ⟨⟨why, rfl, hw⟩, rfl, rfl, rfl, rfl⟩⟩
      · exact ⟨rfl, rfl, rfl, rfl, Or.inl ⟨Or.inl rfl, rfl, rfl⟩⟩
      · exact ⟨rfl, rfl, rfl, rfl, Or.inl ⟨Or.inr ⟨_, rfl⟩, rfl, rfl⟩⟩
    | closeReason why => exact ⟨rfl, rfl, rfl, rfl, Or.inl ⟨Or.inr ⟨_, rfl⟩, rfl, rfl⟩⟩
    | _ => exact ⟨rfl, rfl, rfl, rfl, Or.inl ⟨Or.inl rfl, rfl, rfl⟩⟩

theorem filterMap_snoc (received : List Item) (item : Item) :
    (received ++ [item]).filterMap startedByPeer = received.filterMap startedByPeer ++ (startedByPeer item).toList := by
  rw [List.filterMap_append]
  cases h : startedByPeer item <;> simp [h]

theorem filter_snoc_of_notDelay {received : List Item} {item : Item} (hn : notDelay item = true) :
    (received ++ [item]).filter notDelay = received.filter notDelay ++ [item] := by
  simp [hn]

theorem filter_snoc_delay (received : List Item) (delay : Delay) :
    (received ++ [Except.ok (Message.testDelay delay)]).filter notDelay = received.filter notDelay := by
  simp [notDelay]

theorem startedByPeer_of_notDelay {item : Item} (hn : notDelay item = true) : startedByPeer item = none := by
  cases item with
  | error e => rfl
  | ok m =>
    cases m with
    | testDelay delay => cases hn
    | _ => rfl

/-- A timing message is echoed if the peer started it, and nothing else changes. -/
theorem testDelay_eq (s : Session) (delay : Delay) :
    s.testDelay delay = { s with echoed := s.echoed ++ (startedByPeer (.ok (.testDelay delay))).toList } := by
  unfold testDelay startedByPeer
  split <;> simp [*]

/-- The loop reads an item, or takes one that is queued: either way it is what was received and comes
next. -/
theorem InOrder.handle {hash : Hash} {item : Item} (hpc : s.pc = .loop hash) (hread : s.read = [])
    (hthread : s.thread = .none)
    (order : s.received.filter notDelay = (if notDelay item then s.handled ++ [item] else s.handled) ++ s.early)
    (echoed : s.echoed ++ (startedByPeer item).toList = s.received.filterMap startedByPeer) :
    InOrder (s.handle hash item) := by
  obtain ⟨hearly, hreceived, -, -, hpc'⟩ := handle_cases (s := s) hash item
  have hread' : (s.handle hash item).read = [] := by
    rcases hpc' with ⟨-, hr, -⟩ | ⟨-, -, hr, -⟩
    · rw [hr, hread]
    · exact hr
  have hbegun : begun (s.handle hash item).pc = true := by
    rcases hpc' with ⟨hp | ⟨e, hp⟩, -⟩ | ⟨-, hp, -⟩
    · rw [hp, hpc]
      rfl
    · rw [hp]
      rfl
    · rw [hp]
      rfl
  have hidle : prompting (s.handle hash item).pc = false → (s.handle hash item).thread = .none := by
    intro hp
    rcases hpc' with ⟨-, -, ht⟩ | ⟨-, hp', -⟩
    · rw [ht, hthread]
    · rw [hp'] at hp
      cases hp
  have hfirst : begun (s.handle hash item).pc = false → (s.handle hash item).early = [] ∧
      (s.handle hash item).received = [] ∧ (s.handle hash item).halfRead = false ∧ (s.handle hash item).torn = false := by
    intro hb
    rw [hbegun] at hb
    cases hb
  cases hn : notDelay item with
  | true =>
    obtain ⟨hh, he⟩ := handle_of_notDelay s hash hn
    rw [startedByPeer_of_notDelay hn, Option.toList_none, List.append_nil] at echoed
    rw [hn, if_pos rfl] at order
    refine ⟨?_, ?_, fun hp => ⟨hread', hidle hp⟩, hfirst⟩
    · rw [hreceived, hh, hearly, hread', List.append_nil]
      exact order
    · rw [he, hreceived]
      exact echoed
  | false =>
    rw [hn, if_neg nofun] at order
    cases item with
    | error e => cases hn
    | ok m =>
      cases m with
      | testDelay delay =>
        refine ⟨?_, ?_, fun hp => ⟨hread', hidle hp⟩, hfirst⟩
        · rw [hreceived, hearly, hread', List.append_nil]
          show _ = (s.testDelay delay).handled ++ s.early
          rw [testDelay_eq]
          exact order
        · rw [hreceived]
          show (s.testDelay delay).echoed = _
          rw [testDelay_eq]
          exact echoed
      | _ => cases hn

theorem begun_of_prompting {pc : Pc} (h : prompting pc = true) : begun pc = true := by
  cases pc with
  | asking hash => rfl
  | joining hash answer => rfl
  | _ => cases h

/-- What the thread reads is behind all that was received before. -/
theorem InOrder.heard (h : InOrder s) (item : Item) (hp : prompting s.pc = true) :
    InOrder ((s.receives item).heard item) := by
  have hb := begun_of_prompting hp
  have keeps : ∀ b, notDelay item = true → InOrder ((s.receives item).keeps item b) := by
    intro b hn
    refine ⟨?_, ?_, fun hp' => ?_, fun hb' => ?_⟩
    · show (s.received ++ [item]).filter notDelay = s.handled ++ s.early ++ (s.read ++ [item])
      rw [filter_snoc_of_notDelay hn, h.order, List.append_assoc]
    · show s.echoed = (s.received ++ [item]).filterMap startedByPeer
      rw [filterMap_snoc, startedByPeer_of_notDelay hn, h.echoed]
      simp
    · exact absurd (hp.symm.trans hp') nofun
    · exact absurd (hb.symm.trans hb') nofun
  cases item with
  | error e => exact keeps true rfl
  | ok m =>
    cases m with
    | testDelay delay =>
      show InOrder { (s.receives (.ok (.testDelay delay))).testDelay delay with thread := .check }
      rw [testDelay_eq]
      refine ⟨?_, ?_, fun hp' => ?_, fun hb' => ?_⟩
      · show (s.received ++ [Except.ok (Message.testDelay delay)]).filter notDelay = s.handled ++ s.early ++ s.read
        rw [filter_snoc_delay, h.order]
      · show s.echoed ++ _ = (s.received ++ [Except.ok (Message.testDelay delay)]).filterMap startedByPeer
        rw [filterMap_snoc, h.echoed]
      · exact absurd (hp.symm.trans hp') nofun
      · exact absurd (hb.symm.trans hb') nofun
    | _ => exact keeps _ rfl

theorem InOrder.prompting_of_thread (h : InOrder s) (ht : s.thread ≠ .none) : prompting s.pc = true := by
  cases hp : prompting s.pc with
  | true => rfl
  | false => exact absurd (h.idle hp).2 ht

theorem InOrder.ask (h : InOrder s) {hash : Hash} (hp : prompting s.pc = false) (log : List Event) :
    InOrder (({ s with log } : Session).ask hash) := by
  refine ⟨?_, h.echoed, nofun, nofun⟩
  show s.received.filter notDelay = s.handled ++ s.early ++ []
  rw [h.order, (h.idle hp).1]

theorem InOrder.step (h : InOrder s) {a : Act} (hs : s.step c config a = some s') : InOrder s' := by
  -- a step that touches neither the reading nor what was read
  have still : ∀ {t : Session}, t.received = s.received → t.handled = s.handled → t.early = s.early →
      t.read = s.read → t.echoed = s.echoed → (prompting t.pc = false → s.read = [] ∧ t.thread = .none) →
      (begun t.pc = false → begun s.pc = false ∧ t.halfRead = s.halfRead ∧ t.torn = s.torn) → InOrder t := by
    intro t hr hh he hrd hec hidle hfirst
    refine ⟨by rw [hr, hh, he, hrd]; exact h.order, by rw [hec, hr]; exact h.echoed, ?_, ?_⟩
    · rw [hrd]
      exact hidle
    · intro hb
      obtain ⟨hb', hhalf, htorn⟩ := hfirst hb
      rw [he, hr, hhalf, htorn]
      exact h.first hb'
  -- a step of the thread's that gives nothing to the loop
  have during : s.thread ≠ .none → ∀ {t : Session}, t.received = s.received → t.handled = s.handled →
      t.early = s.early → t.read = s.read → t.echoed = s.echoed → t.pc = s.pc → InOrder t := by
    intro ht t hr hh he hrd hec hpc
    have hp := h.prompting_of_thread ht
    refine still hr hh he hrd hec ?_ ?_
    · rw [hpc, hp]
      nofun
    · rw [hpc, begun_of_prompting hp]
      nofun
  cases stepped c config hs with
  | refused hpc hsec => exact still rfl rfl rfl rfl rfl (fun _ => h.idle (by rw [hpc]; rfl)) nofun
  | secured hpc hsec =>
    exact still rfl rfl rfl rfl rfl (fun _ => h.idle (by rw [hpc]; rfl)) fun _ => ⟨by rw [hpc]; rfl, rfl, rfl⟩
  | greeted hpc =>
    exact still rfl rfl rfl rfl rfl (fun _ => h.idle (by rw [hpc]; rfl)) fun _ => ⟨by rw [hpc]; rfl, rfl, rfl⟩
  | unread hpc => exact still rfl rfl rfl rfl rfl (fun _ => h.idle (by rw [hpc]; rfl)) nofun
  | challenged hpc =>
    exact still rfl rfl rfl rfl rfl (fun _ => h.idle (by rw [hpc]; rfl)) fun _ => ⟨by rw [hpc]; rfl, rfl, rfl⟩
  | unhashed hpc => exact h
  | read hpc he =>
    rename_i item
    obtain ⟨hread, hthread⟩ := h.idle (by rw [hpc]; rfl)
    refine InOrder.handle hpc hread hthread ?_ ?_
    · show (s.received ++ [item]).filter notDelay = (if notDelay item then s.handled ++ [item] else s.handled) ++ s.early
      have ho : s.received.filter notDelay = s.handled := by
        rw [h.order, he, hread]
        simp
      cases hn : notDelay item <;> simp [hn, ho, he]
    · show s.echoed ++ _ = (s.received ++ [item]).filterMap startedByPeer
      rw [filterMap_snoc, h.echoed]
  | question hpc =>
    have hp : prompting s.pc = false := by rw [hpc]; rfl
    unfold Session.agree
    dsimp only
    split
    · exact still rfl rfl rfl rfl rfl (fun _ => h.idle hp) nofun
    · split
      · exact h.ask hp _
      · exact still rfl rfl rfl rfl rfl (fun _ => h.idle hp) nofun
  | take hpc he =>
    rename_i hash item early
    obtain ⟨hread, hthread⟩ := h.idle (by rw [hpc]; rfl)
    have hn : notDelay item = true := h.notDelay_early item (by rw [he]; simp)
    refine InOrder.handle hpc hread hthread ?_ ?_
    · show s.received.filter notDelay = (if notDelay item then s.handled ++ [item] else s.handled) ++ early
      rw [hn, if_pos rfl, h.order, he, hread]
      simp
    · show s.echoed ++ _ = s.received.filterMap startedByPeer
      rw [startedByPeer_of_notDelay hn, h.echoed]
      simp
  | fails hpc => exact still rfl rfl rfl rfl rfl (fun _ => h.idle (by rw [hpc]; rfl)) nofun
  | again hpc => exact h
  | answer hpc => exact still rfl rfl rfl rfl rfl nofun nofun
  | cancel hpc => exact still rfl rfl rfl rfl rfl nofun nofun
  | withdrawn hpc hf => exact still rfl rfl rfl rfl rfl nofun nofun
  | spawn ht => exact during (by rw [ht]; nofun) rfl rfl rfl rfl rfl rfl
  | check ht => exact during (by rw [ht]; nofun) rfl rfl rfl rfl rfl rfl
  | quiet ht => exact during (by rw [ht]; nofun) rfl rfl rfl rfl rfl rfl
  | begins ht => exact during (by rw [ht]; nofun) rfl rfl rfl rfl rfl rfl
  | broken ht =>
    have hp := h.prompting_of_thread (by rw [ht]; nofun)
    refine ⟨?_, ?_, fun hp' => absurd (hp.symm.trans hp') nofun,
      fun hb => absurd ((begun_of_prompting hp).symm.trans hb) nofun⟩
    · show (s.received ++ [Except.error ReadError.failed]).filter notDelay = s.handled ++ s.early ++ (s.read ++ [.error .failed])
      rw [filter_snoc_of_notDelay rfl, h.order, List.append_assoc]
    · show s.echoed = (s.received ++ [Except.error ReadError.failed]).filterMap startedByPeer
      rw [filterMap_snoc, startedByPeer_of_notDelay rfl, h.echoed]
      simp
  | frame ht => exact h.heard _ (h.prompting_of_thread (by rw [ht]; nofun))
  | join hpc ht =>
    have order : s.received.filter notDelay = s.handled ++ (s.early ++ s.read) ++ [] := by
      rw [h.order, List.append_nil, List.append_assoc]
    unfold Session.joined
    dsimp only
    split
    · exact ⟨order, h.echoed, fun _ => ⟨rfl, rfl⟩, nofun⟩
    · split
      · exact ⟨order, h.echoed, fun _ => ⟨rfl, rfl⟩, nofun⟩
      · exact ⟨order, h.echoed, fun _ => ⟨rfl, rfl⟩, nofun⟩
      · exact ⟨order, h.echoed, fun _ => ⟨rfl, rfl⟩, nofun⟩

theorem inOrder_start (introduction : Option (List UInt8)) : InOrder (start introduction) :=
  ⟨rfl, rfl, fun _ => ⟨rfl, rfl⟩, fun _ => ⟨rfl, rfl, rfl, rfl⟩⟩

/-! ## What is settled -/

/-- A wrong password, for which the loop asks again. -/
def asksAgain : Item → Bool
  | .ok (.loginError why) => loginError why == .password
  | _ => false

def takes : Act → Bool
  | .take => true
  | _ => false

/-- The loop takes a wrong password only where nothing that settles the login is queued behind it. -/
def Untold (s : Session) (a : Act) : Prop :=
  takes a = true → s.early.head?.any asksAgain = true → ∀ i ∈ s.early.tail, settles i = false

instance (s : Session) : DecidablePred s.Untold := fun _ => inferInstanceAs (Decidable (_ → _ → _))

/-- The prompt is open, and was not taken back, only while nothing received settles the login. -/
def Open (s : Session) : Prop :=
  ∀ hash, s.pc = .asking hash → s.fired = false → ∀ i ∈ s.early ++ s.read, settles i = false

/-- Still reading. -/
def listening : Thread → Bool
  | .none | .finished => false
  | _ => true

structure Settled (s : Session) : Prop where
  isOpen : Open s
  listens : listening s.thread = true → ∀ i ∈ s.early ++ s.read, settles i = false
  /-- A frame that is read in part is being read, or what read it has failed. -/
  whole : s.halfRead = true →
    s.thread = .frame ∨ (∃ e, .error e ∈ s.early ++ s.read) ∨ ∃ e, s.pc = .finished e
  untorn : s.torn = false

theorem not_error_of_settles {l : List Item} (h : ∀ i ∈ l, settles i = false) : ¬∃ e, .error e ∈ l := by
  rintro ⟨e, he⟩
  exact absurd (h _ he) nofun

/-- No frame is read in part where the thread is about to read one. -/
theorem Settled.boundary (h : Settled s) (hi : InOrder s) (hl : listening s.thread = true) (hf : s.thread ≠ .frame) :
    s.halfRead = false := by
  cases hh : s.halfRead with
  | false => rfl
  | true =>
    rcases h.whole hh with ht | he | ⟨e, hpc⟩
    · exact absurd ht hf
    · exact absurd he (not_error_of_settles (h.listens hl))
    · have ht := (hi.idle (by rw [hpc]; rfl)).2
      rw [ht] at hl
      cases hl

/-- Handling keeps what is settled, if a wrong password has nothing behind it that settles. -/
theorem Settled.handle {hash : Hash} {item : Item} (hpc : s.pc = .loop hash)
    (hthread : s.thread = .none) (htorn : s.torn = false)
    (hwhole : s.halfRead = true → (∃ e, item = .error e) ∨ ∃ e, .error e ∈ s.early)
    (hu : ∀ why, item = .ok (.loginError why) → loginError why = .password → ∀ i ∈ s.early, settles i = false) :
    Settled (s.handle hash item) := by
  obtain ⟨hearly, -, hhalf, htorn', hcases⟩ := handle_cases (s := s) hash item
  have hover : ∀ e, item = .error e → ∃ e', (s.handle hash item).pc = .finished e' := by
    rintro e rfl
    exact ⟨_, rfl⟩
  have hwhole' : (s.handle hash item).halfRead = true → (s.handle hash item).thread = .frame ∨
      (∃ e, .error e ∈ (s.handle hash item).early ++ (s.handle hash item).read) ∨
      ∃ e, (s.handle hash item).pc = .finished e := by
    intro hh
    rw [hhalf] at hh
    rcases hwhole hh with ⟨e, he⟩ | ⟨e, he⟩
    · exact Or.inr (Or.inr (hover e he))
    · refine Or.inr (Or.inl ⟨e, ?_⟩)
      rw [hearly]
      exact List.mem_append_left _ he
  rcases hcases with ⟨hp, hr, ht⟩ | ⟨⟨why, hitem, hwhy⟩, -, hr, -, -⟩
  · refine ⟨?_, ?_, hwhole', htorn'.trans htorn⟩
    · intro hash' hp'
      rcases hp with hp | ⟨e, hp⟩
      · rw [hp, hpc] at hp'
        cases hp'
      · rw [hp] at hp'
        cases hp'
    · rw [ht, hthread]
      nofun
  · have hno : ∀ i ∈ (s.handle hash item).early ++ (s.handle hash item).read, settles i = false := by
      rw [hearly, hr, List.append_nil]
      exact hu why hitem hwhy
    exact ⟨fun _ _ _ => hno, fun _ => hno, hwhole', htorn'.trans htorn⟩

/-- What the thread read: kept, and the prompt taken back if it settles. -/
theorem Settled.keeps (s : Session) (item : Item) (hno : ∀ i ∈ s.early ++ s.read, settles i = false)
    (hwhole : s.halfRead = true → ∃ e, item = .error e) (htorn : s.torn = false) :
    Settled (s.keeps item (settles item)) := by
  have hall : settles item = false → ∀ i ∈ s.early ++ (s.read ++ [item]), settles i = false := by
    intro hi i hmem
    rw [← List.append_assoc, List.mem_append, List.mem_singleton] at hmem
    rcases hmem with hmem | rfl
    · exact hno i hmem
    · exact hi
  refine ⟨?_, ?_, ?_, htorn⟩
  · intro hash _ hf
    have hf' : (s.fired || settles item) = false := hf
    exact hall (Bool.or_eq_false_iff.mp hf').2
  · intro hl
    cases hi : settles item with
    | false => exact hall hi
    | true =>
      have hl' : listening (if settles item then .finished else .check) = true := hl
      rw [hi] at hl'
      cases hl'
  · intro hh
    obtain ⟨e, rfl⟩ := hwhole hh
    exact Or.inr (Or.inl ⟨e, by simp [Session.keeps]⟩)

theorem Settled.heard (h : Settled s) (ht : s.thread = .frame) (item : Item) :
    Settled ((s.receives item).heard item) := by
  have hno : ∀ i ∈ s.early ++ s.read, settles i = false := h.listens (by rw [ht]; rfl)
  have keeps : ∀ m, Settled ((s.receives (.ok m)).keeps (.ok m) (settles (.ok m))) :=
    fun m => Settled.keeps (s.receives (.ok m)) (.ok m) hno (fun hh => absurd hh nofun) h.untorn
  cases item with
  | error e => exact Settled.keeps (s.receives (.error e)) (.error e) hno (fun _ => ⟨e, rfl⟩) h.untorn
  | ok m =>
    cases m with
    | testDelay delay =>
      show Settled { (s.receives (.ok (.testDelay delay))).testDelay delay with thread := .check }
      rw [testDelay_eq]
      exact ⟨fun _ _ _ => hno, fun _ => hno, nofun, h.untorn⟩
    | _ => exact keeps _

theorem Settled.step (h : Settled s) (hi : InOrder s) {a : Act} (hc : s.Untold a) (hs : s.step c config a = some s') :
    Settled s' := by
  -- before the first login nothing was received
  have before : ∀ {t : Session}, begun s.pc = false → t.halfRead = s.halfRead → t.torn = s.torn →
      t.early = s.early → t.read = s.read → Settled t := by
    intro t hb hhalf htorn hearly hread
    obtain ⟨he, -, hh, ht⟩ := hi.first hb
    have hr : s.read = [] := (hi.idle (by cases hpc : s.pc <;> simp_all [begun, prompting])).1
    have hno : ∀ i ∈ t.early ++ t.read, settles i = false := by
      rw [hearly, hread, he, hr]
      nofun
    refine ⟨fun _ _ _ => hno, fun _ => hno, ?_, htorn.trans ht⟩
    rw [hhalf, hh]
    nofun
  -- an answer leaves the reading as it is
  have stays : ∀ {hash : Hash} {p : Prompted}, s.pc = .asking hash → s.halfRead = true →
      s.thread = .frame ∨ (∃ e, .error e ∈ s.early ++ s.read) ∨ ∃ e, Pc.joining hash p = .finished e := by
    intro hash p hpc hh
    rcases h.whole hh with ht | he | ⟨e, hover⟩
    · exact Or.inl ht
    · exact Or.inr (Or.inl he)
    · rw [hpc] at hover
      cases hover
  cases stepped c config hs with
  | refused hpc hsec => exact before (by rw [hpc]; rfl) rfl rfl rfl rfl
  | secured hpc hsec => exact before (by rw [hpc]; rfl) rfl rfl rfl rfl
  | greeted hpc => exact before (by rw [hpc]; rfl) rfl rfl rfl rfl
  | unread hpc => exact before (by rw [hpc]; rfl) rfl rfl rfl rfl
  | challenged hpc => exact before (by rw [hpc]; rfl) rfl rfl rfl rfl
  | unhashed hpc => exact h
  | read hpc he =>
    obtain ⟨hread, hthread⟩ := hi.idle (by rw [hpc]; rfl)
    have hhalf : s.halfRead = false := by
      cases hh : s.halfRead with
      | false => rfl
      | true =>
        rcases h.whole hh with ht | ⟨e, herr⟩ | ⟨e, hover⟩
        · rw [hthread] at ht
          cases ht
        · rw [he, hread] at herr
          cases herr
        · rw [hpc] at hover
          cases hover
    rename_i hash item
    refine Settled.handle hpc hthread ?_ ?_ ?_
    · show (s.torn || s.halfRead) = false
      rw [h.untorn, hhalf]
      rfl
    · intro hh
      cases item with
      | error e => exact Or.inl ⟨e, rfl⟩
      | ok m => exact absurd hh nofun
    · intro why _ _
      show ∀ i ∈ s.early, settles i = false
      rw [he]
      nofun
  | question hpc =>
    unfold Session.agree
    dsimp only
    split
    · exact before (by rw [hpc]; rfl) rfl rfl rfl rfl
    · split
      · exact before (by rw [hpc]; rfl) rfl rfl rfl (hi.idle (by rw [hpc]; rfl)).1.symm
      · exact before (by rw [hpc]; rfl) rfl rfl rfl rfl
  | take hpc he =>
    obtain ⟨hread, hthread⟩ := hi.idle (by rw [hpc]; rfl)
    rename_i hash item early
    refine Settled.handle hpc hthread h.untorn ?_ ?_
    · intro hh
      rcases h.whole hh with ht | ⟨e, herr⟩ | ⟨e, hover⟩
      · rw [hthread] at ht
        cases ht
      · rw [he, hread, List.append_nil] at herr
        rcases List.mem_cons.mp herr with heq | hmem
        · exact Or.inl ⟨e, heq.symm⟩
        · exact Or.inr ⟨e, hmem⟩
      · rw [hpc] at hover
        cases hover
    · rintro why rfl hwhy
      have hno := hc rfl
      rw [he] at hno
      exact hno (by simp [asksAgain, hwhy])
  | fails hpc => exact ⟨nofun, h.listens, fun hh => Or.inr (Or.inr ⟨_, rfl⟩), h.untorn⟩
  | again hpc => exact h
  | answer hpc => exact ⟨nofun, h.listens, stays hpc, h.untorn⟩
  | cancel hpc => exact ⟨nofun, h.listens, stays hpc, h.untorn⟩
  | withdrawn hpc hf => exact ⟨nofun, h.listens, stays hpc, h.untorn⟩
  | spawn ht =>
    have hl : listening s.thread = true := by rw [ht]; rfl
    refine ⟨h.isOpen, fun _ => h.listens hl, ?_, h.untorn⟩
    rw [show (({ s with thread := _ } : Session).halfRead) = false from h.boundary hi hl (by rw [ht]; nofun)]
    nofun
  | check ht =>
    have hl : listening s.thread = true := by rw [ht]; rfl
    refine ⟨h.isOpen, fun _ => h.listens hl, ?_, h.untorn⟩
    rw [show (({ s with thread := _ } : Session).halfRead) = false from h.boundary hi hl (by rw [ht]; nofun)]
    nofun
  | quiet ht =>
    have hl : listening s.thread = true := by rw [ht]; rfl
    refine ⟨h.isOpen, fun _ => h.listens hl, ?_, h.untorn⟩
    rw [show (({ s with thread := _ } : Session).halfRead) = false from h.boundary hi hl (by rw [ht]; nofun)]
    nofun
  | begins ht =>
    have hl : listening s.thread = true := by rw [ht]; rfl
    refine ⟨h.isOpen, fun _ => h.listens hl, fun _ => Or.inl rfl, ?_⟩
    show (s.torn || s.halfRead) = false
    rw [h.untorn, h.boundary hi hl (by rw [ht]; nofun)]
    rfl
  | broken ht =>
    have hl : listening s.thread = true := by rw [ht]; rfl
    exact Settled.keeps { s with received := s.received ++ [.error .failed] } (.error .failed) (h.listens hl)
      (fun _ => ⟨_, rfl⟩) h.untorn
  | frame ht => exact h.heard ht _
  | join hpc ht =>
    have hwhole : s.halfRead = true → ∃ e, .error e ∈ s.early ++ s.read := by
      intro hh
      rcases h.whole hh with ht' | he | ⟨e, hover⟩
      · rcases ht with ht | ht <;> rw [ht] at ht' <;> cases ht'
      · exact he
      · rw [hpc] at hover
        cases hover
    have hwhole' : s.halfRead = true → ∃ e, .error e ∈ s.early ++ s.read ++ [] := by
      rw [List.append_nil]
      exact hwhole
    unfold Session.joined
    dsimp only
    split
    · exact ⟨nofun, nofun, fun hh => Or.inr (Or.inl (hwhole' hh)), h.untorn⟩
    · split
      · exact ⟨nofun, nofun, fun hh => Or.inr (Or.inl (hwhole' hh)), h.untorn⟩
      · exact ⟨nofun, nofun, fun hh => Or.inr (Or.inl (hwhole' hh)), h.untorn⟩
      · exact ⟨nofun, nofun, fun hh => Or.inr (Or.inl (hwhole' hh)), h.untorn⟩

theorem settled_start (introduction : Option (List UInt8)) : Settled (start introduction) :=
  ⟨fun _ _ _ => nofun, fun _ => nofun, nofun, rfl⟩

/-! ## Every run -/

/-- What is promised of a state: every message is handled or waits to be, in the order of arrival, and
every timing message is echoed; no frame is read from the middle of another, and outside a prompt one
is read in part only by a read that failed, of which the loop is yet to hear or has heard; and no
prompt is open that something received has settled. -/
structure Kept (s : Session) : Prop where
  order : s.received.filter notDelay = s.handled ++ s.early ++ s.read
  echoed : s.echoed = s.received.filterMap startedByPeer
  untorn : s.torn = false
  whole : prompting s.pc = false → s.halfRead = true → (∃ e, .error e ∈ s.early) ∨ ∃ e, s.pc = .finished e
  isOpen : Open s

theorem Settled.kept (h : Settled s) (hi : InOrder s) : Kept s := by
  refine ⟨hi.order, hi.echoed, h.untorn, ?_, h.isOpen⟩
  intro hp hh
  obtain ⟨hread, hthread⟩ := hi.idle hp
  rcases h.whole hh with ht | he | hover
  · rw [hthread] at ht
    cases ht
  · rw [hread, List.append_nil] at he
    exact Or.inl he
  · exact Or.inr hover

theorem handle_password {why : String} (hwhy : loginError why = .password) (hash : Hash) :
    s.handle hash (.ok (.loginError why)) =
      ({ s with handled := s.handled ++ [.ok (.loginError why)] } : Session).ask hash := by
  simp only [handle, handleMessage, hwhy]

/-- A prompt put over something settled is open. -/
theorem untold_of_isOpen {a : Act} (hs : s.step c config a = some s') (h : Open s') : s.Untold a := by
  cases stepped c config hs with
  | take hpc he =>
    rename_i hash item behind
    intro _ hagain i hi
    rw [he] at hagain hi
    have hitem : asksAgain item = true := hagain
    cases item with
    | error e => cases hitem
    | ok m =>
      cases m with
      | loginError why =>
        rw [handle_password (eq_of_beq hitem)] at h
        refine h hash rfl rfl i ?_
        show i ∈ behind ++ []
        rw [List.append_nil]
        exact hi
      | _ => cases hitem
  | _ => exact fun ht => absurd ht nofun

/-- A session without ciphers, and no password to log in with. -/
def plain : Sodium where
  signOpen _ _ := none
  parseIdPk _ := .error "not one"
  boxEasy _ _ _ := .error "not one"
  genericHash _ _ := .error "not one"
  sha256 _ := []

def noPassword : Config := ⟨"", [], none⟩

/-- The first login has no password, so the user is asked for one. -/
def asked : List Act :=
  [.greeted true, .read (.ok (.hash ⟨[0x73], [0x63]⟩)), .question true, .spawn true, .check, .poll (some true)]

/-- The peer accepts while the user is asked. -/
def accepted : List Act :=
  asked ++ [.frame (.ok (.peerInfo 1 0)), .withdrawn, .join true, .take]

/-- The peer refuses the empty password and then lets the user in, as one at the machine agrees; the
loop hears of the first, and asks over the second. -/
def crossed : List Act :=
  asked ++ [.frame (.ok (.loginError "Wrong Password")), .check, .poll (some true), .frame (.ok (.peerInfo 1 0)),
    .withdrawn, .join true, .take]

end Session

end Vento.Rustdesk
