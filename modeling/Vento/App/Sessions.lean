import Vento.App.Session
import Vento.Lib.LinkedMap
/-!
# All sessions

`Sessions.java`: those that have been opened and not yet closed, by their target, with what `Session.java` does to the registry
and to the alarms that close a session which has been off screen for too long.

A session is known by the id of its notification, which is never given twice. `AlarmManager` keeps one alarm for each, and a due
one is `fire`d at any time, after which it is on its way to the receiver and cannot be cancelled.
-/

namespace Vento.App

open Vento.Lib

structure Sessions (P V B : Type) where
  /-- All there ever were. -/
  session : Nat → Option (Opened P V B) := fun _ => none
  live : LinkedMap Text Nat := .empty
  nextNotification : Nat := 1
  /-- The setting; none is 0. -/
  sessionTimeout : Int
  now : Int
  /-- When each goes off, and for which key. -/
  alarms : Nat → Option (Int × Text) := fun _ => none
  /-- What the receiver has still to be given. -/
  firing : List Text := []

namespace Sessions

variable {P V B : Type} (w : Sessions P V B)

def byKey (key : Text) : Option Nat := w.live.get? key

/-- In the order they were opened. -/
def all : List Nat := w.live.values

def alive : List Nat := w.all.filter fun n => (w.session n).any (·.session.alive)

def modify (n : Nat) (f : Opened P V B → Opened P V B) : Sessions P V B :=
  { w with session := Function.update w.session n ((w.session n).map f) }

def add (key : Text) (n : Nat) : Sessions P V B := { w with live := w.live.put key n }

/-- Only if it is still the registered one. -/
def remove (key : Text) (n : Nat) : Sessions P V B :=
  if w.live.get? key = some n then { w with live := w.live.remove key } else w

/-- Set, move or cancel the alarm that closes a session. -/
def rearmTimeout (n : Nat) : Sessions P V B :=
  let w := { w with alarms := Function.update w.alarms n none }
  match w.session n with
  | none => w
  | some o =>
    if !o.session.alive || o.session.onScreen || w.sessionTimeout ≤ 0 then w
    else { w with alarms := Function.update w.alarms n (some (o.session.lastOnScreenAt + w.sessionTimeout * 60000, o.session.key)) }

variable [DecidableEq P]

def close (n : Nat) : Sessions P V B :=
  match w.session n with
  | none => w
  | some o =>
    if o.session.closed then w
    else (((w.modify n Opened.closing).rearmTimeout n).remove o.session.key n).modify n Opened.release

/-- Opening a session for a target replaces the one there is. -/
def closeWas (key : Text) : Sessions P V B :=
  match w.byKey key with
  | some was => w.close was
  | none => w

/-- `Session.open`. A backend whose `connect` throws gives the message and the name of the class of what it threw. -/
def openSession (key : Text) (thrown : Option (Option Text × Text)) : Sessions P V B :=
  let w := w.closeWas key
  let n := w.nextNotification
  let w := { w with
    session := Function.update w.session n (some ⟨{ key, notification := n, lastOnScreenAt := w.now }, fun _ => {}, []⟩)
    nextNotification := n + 1 }
  let w := w.add key n
  match thrown with
  | some (said, name) => w.modify n (·.on (·.onState .closed (some ((orNull said).getD name))))
  | none => w

def onScreen (n : Nat) (visible : Bool) : Sessions P V B :=
  (w.modify n (·.on (·.setOnScreen visible w.now))).rearmTimeout n

def disconnect (n : Nat) (during : List (BackendState × Option Text)) : Sessions P V B :=
  (w.modify n fun o => (o.on fun s => { s with leaving := true }).backendDisconnect during).close n

/-- The setting has changed, and every deadline moves with it. -/
def timeoutChanged (minutes : Int) : Sessions P V B :=
  let w := { w with sessionTimeout := minutes }
  w.all.foldl rearmTimeout w

/-- The receiver is given an alarm. -/
def onReceive (key : Text) (label : Text) (during : List (BackendState × Option Text)) : Sessions P V B :=
  match w.byKey key with
  | none => w
  | some n =>
    if (w.session n).any (·.timesOut w.sessionTimeout) then
      (w.modify n fun o => (o.backendDisconnect during).on (·.setDetail (Opened.timeoutReason label))).close n
    else w

end Sessions

/-- What a session does by itself. -/
def Act.ordinary {P V B : Type} : Act P V B → Bool
  | .onScreen _ _ => false
  | .timedOut _ _ _ => false
  | .disconnect _ => false
  | .close => false
  | _ => true

inductive Event (P V B : Type)
  | openSession (key : Text) (thrown : Option (Option Text × Text))
  | act (n : Nat) (a : Act P V B)
  | onScreen (n : Nat) (visible : Bool)
  | disconnect (n : Nat) (during : List (BackendState × Option Text))
  | close (n : Nat)
  | timeoutChanged (minutes : Int)
  | tick (ms : Nat)
  | fire (n : Nat)
  | receive (key : Text) (label : Text) (during : List (BackendState × Option Text))

namespace Sessions

variable {P V B : Type} [DecidableEq P] [DecidableEq V] (w : Sessions P V B)

def step : Event P V B → Option (Sessions P V B)
  | .openSession key thrown => some (w.openSession key thrown)
  | .act n a =>
    if a.ordinary then
      ((w.session n).bind (·.step a)).map fun o => { w with session := Function.update w.session n (some o) }
    else none
  | .onScreen n visible => if (w.session n).isSome then some (w.onScreen n visible) else none
  | .disconnect n during => if (w.session n).isSome then some (w.disconnect n during) else none
  | .close n => some (w.close n)
  | .timeoutChanged minutes => some (w.timeoutChanged (max 0 minutes))
  | .tick ms => some { w with now := w.now + ms }
  | .fire n =>
    match w.alarms n with
    | some (due, key) =>
      if due ≤ w.now then some { w with alarms := Function.update w.alarms n none, firing := w.firing ++ [key] } else none
    | none => none
  | .receive key label during =>
    if key ∈ w.firing then some ({ w with firing := w.firing.erase key }.onReceive key label during) else none

end Sessions

/-! ## What each operation leaves -/

namespace Sessions

variable {P V B : Type} [DecidableEq P] (w : Sessions P V B)

omit [DecidableEq P] in
theorem modify_eq {n : Nat} {o : Opened P V B} (h : w.session n = some o) (f : Opened P V B → Opened P V B) :
    w.modify n f = { w with session := Function.update w.session n (some (f o)) } := by
  rw [modify, h, Option.map_some]

/-- A session that closes is closed, out of the registry and without an alarm. -/
theorem close_eq {n : Nat} {o : Opened P V B} (h : w.session n = some o) (ho : o.session.closed = false) :
    w.close n = { w with
      session := Function.update w.session n (some o.close)
      live := (w.remove o.session.key n).live
      alarms := Function.update w.alarms n none } := by
  have hrearm : (w.modify n Opened.closing).rearmTimeout n =
      { w with session := Function.update w.session n (some o.closing), alarms := Function.update w.alarms n none } := by
    rw [modify_eq w h, rearmTimeout]
    simp [Opened.closing, Opened.on, Session.alive]
  rw [close, h]
  dsimp only
  rw [if_neg (Bool.eq_false_iff.1 ho), hrearm, Opened.close_of_open ho, remove, remove]
  dsimp only
  split
  · rw [modify_eq _ (Function.update_self n (some o.closing) w.session)]
    simp only [Function.update_idem]
  · rw [modify_eq _ (Function.update_self n (some o.closing) w.session)]
    simp only [Function.update_idem]

theorem close_of_closed {n : Nat} {o : Opened P V B} (h : w.session n = some o) (ho : o.session.closed = true) :
    w.close n = w := by
  rw [close, h]
  exact if_pos ho

theorem close_of_none {n : Nat} (h : w.session n = none) : w.close n = w := by
  rw [close, h]

/-- When a session is to be closed, and for which key. -/
def deadline (n : Nat) : Option (Int × Text) :=
  (w.session n).bind fun o =>
    if o.session.alive ∧ o.session.onScreen = false ∧ 0 < w.sessionTimeout then
      some (o.session.lastOnScreenAt + w.sessionTimeout * 60000, o.session.key)
    else none

omit [DecidableEq P] in
/-- To arm an alarm changes nothing else. -/
theorem rearmTimeout_eq (n : Nat) : w.rearmTimeout n = { w with alarms := Function.update w.alarms n (w.deadline n) } := by
  rw [rearmTimeout, deadline]
  cases hn : w.session n with
  | none => rfl
  | some o =>
    dsimp only [Option.bind_some]
    by_cases h : o.session.alive ∧ o.session.onScreen = false ∧ 0 < w.sessionTimeout
    · obtain ⟨ha, hs, hm⟩ := h
      rw [if_neg (by simp [ha, hs, hm]), if_pos ⟨ha, hs, hm⟩, Function.update_idem]
    · rw [if_neg h, if_pos]
      have hcases : o.session.alive = false ∨ o.session.onScreen = true ∨ w.sessionTimeout ≤ 0 := by
        by_contra hno
        simp only [not_or, Bool.not_eq_false, Bool.not_eq_true, Int.not_le] at hno
        exact h hno
      rcases hcases with h | h | h <;> simp [h]

omit [DecidableEq P] in
theorem rearmAll_eq (ns : List Nat) :
    ns.foldl rearmTimeout w = { w with alarms := fun n => if n ∈ ns then w.deadline n else w.alarms n } := by
  induction ns generalizing w with
  | nil => simp
  | cons n ns ih =>
    rw [List.foldl_cons, ih, rearmTimeout_eq]
    congr 1
    funext m
    by_cases hns : m ∈ ns
    · rw [if_pos hns, if_pos (List.mem_cons_of_mem n hns)]
      rfl
    · rw [if_neg hns]
      dsimp only
      by_cases hmn : m = n
      · rw [hmn, Function.update_self, if_pos List.mem_cons_self]
      · rw [Function.update_of_ne hmn, if_neg (by simp [hmn, hns])]

theorem close_firing (n : Nat) (firing : List Text) : close { w with firing } n = { w.close n with firing } := by
  cases hn : w.session n with
  | none => rw [close_of_none w hn, close_of_none { w with firing } hn]
  | some o =>
    cases ho : o.session.closed with
    | true => rw [close_of_closed w hn ho, close_of_closed { w with firing } hn ho]
    | false =>
      rw [close_eq w hn ho, close_eq { w with firing } hn ho, remove, remove]
      split <;> rfl

theorem firing_close (n : Nat) : (w.close n).firing = w.firing := by
  have h : w.close n = { w.close n with firing := w.firing } := w.close_firing n w.firing
  rw [h]

theorem close_session (n : Nat) : (w.close n).session = Function.update w.session n ((w.session n).map Opened.close) := by
  cases hn : w.session n with
  | none => rw [close_of_none w hn, Option.map_none, ← hn, Function.update_eq_self]
  | some o =>
    cases ho : o.session.closed with
    | true =>
      have hsame : o.close = o := by rw [Opened.close, if_pos ho]
      rw [close_of_closed w hn ho, Option.map_some, hsame, ← hn, Function.update_eq_self]
    | false => rw [close_eq w hn ho, Option.map_some]

/-! ## What a session is known by -/

section Core

variable (o : Opened P V B)

/-- What the registry and the alarms read. -/
def core (s : Session P V B) : Text × Int × Bool × Bool := (s.key, s.lastOnScreenAt, s.onScreen, s.closed)

omit [DecidableEq P] in
theorem core_of_sameBut {s s' : Session P V B} : Opened.SameBut s s' → core s' = core s := by
  rintro ⟨pending, rfl⟩
  rfl

omit [DecidableEq P] in
theorem core_onStates (s : Session P V B) (rs : List (BackendState × Option Text)) :
    core (rs.foldl (fun s r => s.onState r.1 r.2) s) = core s := by
  induction rs generalizing s with
  | nil => rfl
  | cons r rs ih =>
    rw [List.foldl_cons, ih, Session.onState]
    split <;> rfl

theorem core_close : core o.close.session = (o.session.key, o.session.lastOnScreenAt, o.session.onScreen, true) := by
  rw [Opened.close]
  split
  · next h => rw [core, h]
  · have hbut := core_of_sameBut (Opened.cancelAll_session o.closing o.closing.session.pending)
    exact hbut

theorem core_step [DecidableEq V] {o o' : Opened P V B} {a : Act P V B} (hord : a.ordinary = true) (ha : o.step a = some o') :
    core o'.session = core o.session := by
  cases a with
  | ask p =>
    obtain ⟨-, ha⟩ := Option.ite_none_right_eq_some.1 ha
    cases ha
    exact core_of_sameBut (o.queue_session p)
  | answer p ok =>
    obtain ⟨-, ha⟩ := Option.ite_none_right_eq_some.1 ha
    cases ha
    rw [Opened.answer_session]
  | withdraw p =>
    obtain ⟨-, ha⟩ := Option.ite_none_right_eq_some.1 ha
    cases ha
    exact core_of_sameBut (o.withdraw_session p)
  | attach v live relative =>
    cases ha
    rw [Opened.attach, core_of_sameBut (Opened.flushPrompts_session _), Opened.on_session, Session.catchUp]
    obtain ⟨st, d, heq⟩ := o.session.reread_eq live
    rw [heq]
    rfl
  | state st d =>
    cases ha
    exact core_onStates o.session [(st, d)]
  | status text =>
    cases ha
    rw [Opened.on_session, Session.onStatus]
    split <;> rfl
  | detach v =>
    cases ha
    rw [Opened.on_session, Session.detach]
    split <;> rfl
  | desktopSize size => cases ha; rfl
  | cursor shape hot => cases ha; rfl
  | pointerMode relative => cases ha; rfl
  | _ => cases hord

end Core

/-! ## The registry -/

/-- Each session that is not closed is registered under its key, nothing else is, and they are in the order of their ids. -/
structure Registered (w : Sessions P V B) : Prop where
  known : ∀ n o, w.session n = some o → 0 < n ∧ n < w.nextNotification
  first : 0 < w.nextNotification
  live : ∀ key n, (key, n) ∈ w.live.entries ↔
    ∃ o, w.session n = some o ∧ o.session.key = key ∧ o.session.closed = false
  order : w.live.values.Pairwise (· < ·)

namespace Registered

variable {w}

omit [DecidableEq P] in
/-- What leaves a session's key, and whether it is closed, leaves the registry right. -/
theorem update (h : Registered w) {n : Nat} {o o' : Opened P V B} (hn : w.session n = some o)
    (hkey : o'.session.key = o.session.key) (hc : o'.session.closed = o.session.closed) :
    Registered { w with session := Function.update w.session n (some o') } where
  known m u hm := by
    by_cases hmn : m = n
    · rw [hmn]
      exact h.known n o hn
    · exact h.known m u ((Function.update_of_ne hmn _ _).symm.trans hm)
  first := h.first
  live key m := by
    rw [h.live]
    dsimp only
    by_cases hmn : m = n
    · subst hmn
      rw [Function.update_self]
      constructor
      · rintro ⟨u, hu, hk, hopen⟩
        cases hn.symm.trans hu
        exact ⟨o', rfl, hkey.trans hk, hc.trans hopen⟩
      · rintro ⟨u, hu, hk, hopen⟩
        cases hu
        exact ⟨o, hn, hkey.symm.trans hk, hc.symm.trans hopen⟩
    · rw [Function.update_of_ne hmn]
  order := h.order

theorem close (h : Registered w) (n : Nat) : Registered (w.close n) := by
  cases hn : w.session n with
  | none => rwa [close_of_none w hn]
  | some o =>
    cases ho : o.session.closed with
    | true => rwa [close_of_closed w hn ho]
    | false =>
      have hcore := core_close o
      simp only [core, Prod.mk.injEq] at hcore
      have hin : w.live.get? o.session.key = some n :=
        LinkedMap.get?_eq_some.2 ((h.live _ n).2 ⟨o, hn, rfl, ho⟩)
      rw [close_eq w hn ho, remove, if_pos hin]
      refine ⟨?_, h.first, ?_, ?_⟩
      · intro m u hm
        by_cases hmn : m = n
        · rw [hmn]
          exact h.known n o hn
        · exact h.known m u ((Function.update_of_ne hmn _ _).symm.trans hm)
      · intro key m
        rw [LinkedMap.mem_remove, h.live]
        dsimp only
        by_cases hmn : m = n
        · subst hmn
          rw [Function.update_self]
          refine iff_of_false ?_ ?_
          · rintro ⟨⟨u, hu, hk, -⟩, hne⟩
            cases hn.symm.trans hu
            exact hne hk.symm
          · rintro ⟨u, hu, -, hopen⟩
            cases hu
            exact Bool.false_ne_true (hopen.symm.trans hcore.2.2.2)
        · rw [Function.update_of_ne hmn]
          refine and_iff_left_of_imp ?_
          rintro ⟨u, hu, hk, hopen⟩ rfl
          -- Two sessions under one key would be one.
          have hm := LinkedMap.get?_eq_some.2 ((h.live _ m).2 ⟨u, hu, hk, hopen⟩)
          exact hmn (Option.some.inj (hm.symm.trans hin))
      · exact h.order.sublist (List.filter_sublist.map Prod.snd)

omit [DecidableEq P] in
/-- A new session goes to the end, under a key that is free. -/
theorem opened (h : Registered w) {key : Text} (hfree : w.live.get? key = none) {o : Opened P V B}
    (hkey : o.session.key = key) (ho : o.session.closed = false) :
    Registered { w with
      session := Function.update w.session w.nextNotification (some o)
      nextNotification := w.nextNotification + 1
      live := w.live.put key w.nextNotification } := by
  have hnew : ∀ m u, w.session m = some u → m ≠ w.nextNotification := fun m u hu => Nat.ne_of_lt (h.known m u hu).2
  refine ⟨?_, Nat.succ_pos _, ?_, ?_⟩
  · intro m u hm
    dsimp only at hm ⊢
    by_cases hmn : m = w.nextNotification
    · rw [hmn]
      exact ⟨h.first, Nat.lt_succ_self _⟩
    · have hknown := h.known m u ((Function.update_of_ne hmn _ _).symm.trans hm)
      exact ⟨hknown.1, Nat.lt_succ_of_lt hknown.2⟩
  · intro key' m
    dsimp only
    rw [LinkedMap.entries_put_of_none hfree, List.mem_append, h.live, List.mem_singleton, Prod.mk.injEq]
    by_cases hmn : m = w.nextNotification
    · subst hmn
      rw [Function.update_self]
      constructor
      · rintro (⟨u, hu, -⟩ | ⟨rfl, -⟩)
        · exact absurd rfl (hnew _ u hu)
        · exact ⟨o, rfl, hkey, ho⟩
      · rintro ⟨u, hu, hk, -⟩
        cases hu
        exact .inr ⟨hk.symm.trans hkey, rfl⟩
    · rw [Function.update_of_ne hmn]
      exact or_iff_left fun h => hmn h.2
  · dsimp only
    rw [LinkedMap.values, LinkedMap.entries_put_of_none hfree, List.map_append]
    refine List.pairwise_append.2 ⟨h.order, List.pairwise_singleton _ _, ?_⟩
    intro m hm m' hm'
    rw [List.map_singleton, List.mem_singleton] at hm'
    obtain ⟨⟨key', n⟩, he, rfl⟩ := List.mem_map.1 hm
    obtain ⟨u, hu, -⟩ := (h.live key' n).1 he
    rw [hm']
    exact (h.known n u hu).2

/-- What is registered under a key is closed before it is opened again. -/
theorem freed (h : Registered w) (key : Text) : Registered (w.closeWas key) ∧ (w.closeWas key).live.get? key = none := by
  rw [closeWas]
  cases hwas : w.byKey key with
  | none => exact ⟨h, hwas⟩
  | some was =>
    refine ⟨h.close was, ?_⟩
    dsimp only
    obtain ⟨o, ho, hkey, hopen⟩ := (h.live key was).1 (LinkedMap.get?_eq_some.1 hwas)
    rw [byKey, ← hkey] at hwas
    rw [close_eq w ho hopen, remove, if_pos hwas, ← hkey]
    exact LinkedMap.get?_remove_self _ _

theorem openSession (h : Registered w) (key : Text) (thrown : Option (Option Text × Text)) :
    Registered (w.openSession key thrown) := by
  obtain ⟨h', hfree⟩ := h.freed key
  unfold Sessions.openSession
  generalize w.closeWas key = w' at h' hfree ⊢
  have hnew := h'.opened (o := ⟨{ key, notification := w'.nextNotification, lastOnScreenAt := w'.now }, fun _ => {}, []⟩) hfree rfl rfl
  cases thrown with
  | none => exact hnew
  | some e =>
    dsimp only [add]
    rw [modify_eq _ (Function.update_self _ _ _)]
    exact hnew.update (Function.update_self _ _ _) rfl rfl

theorem step [DecidableEq V] {w' : Sessions P V B} {e : Event P V B} (h : Registered w) (he : w.step e = some w') :
    Registered w' := by
  have hmodify : ∀ (u : Sessions P V B) (n : Nat) (f : Opened P V B → Opened P V B), Registered u →
      (∀ o : Opened P V B, (f o).session.key = o.session.key ∧ (f o).session.closed = o.session.closed) →
      Registered (u.modify n f) := by
    intro u n f hu hf
    cases hn : u.session n with
    | none =>
      rw [modify, hn, Option.map_none, ← hn, Function.update_eq_self]
      exact hu
    | some o =>
      rw [modify_eq u hn]
      exact hu.update hn (hf o).1 (hf o).2
  have hrearm : ∀ (u : Sessions P V B) (n : Nat), Registered u → Registered (u.rearmTimeout n) := by
    intro u n hu
    rw [rearmTimeout_eq]
    exact ⟨hu.known, hu.first, hu.live, hu.order⟩
  cases e with
  | openSession key thrown =>
    cases he
    exact h.openSession key thrown
  | act n a =>
    obtain ⟨hord, he⟩ := Option.ite_none_right_eq_some.1 he
    obtain ⟨o', ho', rfl⟩ := Option.map_eq_some_iff.1 he
    obtain ⟨o, hn, ha⟩ := Option.bind_eq_some_iff.1 ho'
    have hcore := core_step hord ha
    simp only [core, Prod.mk.injEq] at hcore
    exact h.update hn hcore.1 hcore.2.2.2
  | onScreen n visible =>
    obtain ⟨-, he⟩ := Option.ite_none_right_eq_some.1 he
    cases he
    exact hrearm _ n (hmodify w n _ h fun o => ⟨rfl, rfl⟩)
  | disconnect n during =>
    obtain ⟨-, he⟩ := Option.ite_none_right_eq_some.1 he
    cases he
    refine Registered.close (hmodify w n _ h fun o => ?_) n
    have hcore := core_onStates { o.session with leaving := true } during
    simp only [core, Prod.mk.injEq] at hcore
    exact ⟨hcore.1, hcore.2.2.2⟩
  | close n =>
    cases he
    exact h.close n
  | timeoutChanged minutes =>
    cases he
    rw [timeoutChanged, rearmAll_eq]
    exact ⟨h.known, h.first, h.live, h.order⟩
  | tick ms =>
    cases he
    exact ⟨h.known, h.first, h.live, h.order⟩
  | fire n =>
    rw [Sessions.step] at he
    split at he
    · obtain ⟨-, he⟩ := Option.ite_none_right_eq_some.1 he
      cases he
      exact ⟨h.known, h.first, h.live, h.order⟩
    · cases he
  | receive key label during =>
    obtain ⟨-, he⟩ := Option.ite_none_right_eq_some.1 he
    cases he
    have h' : Registered { w with firing := w.firing.erase key } := ⟨h.known, h.first, h.live, h.order⟩
    rw [onReceive]
    split
    · exact h'
    · split
      · refine Registered.close (hmodify _ _ _ h' fun o => ?_) _
        have hcore := core_onStates o.session during
        simp only [core, Prod.mk.injEq] at hcore
        exact ⟨hcore.1, hcore.2.2.2⟩
      · exact h'

end Registered

/-- Without a session yet. -/
def start (sessionTimeout now : Int) : Sessions P V B := { sessionTimeout, now }

omit [DecidableEq P] in
theorem registered_start (minutes now : Int) : Registered (start minutes now : Sessions P V B) := by
  refine ⟨fun n o hn => absurd hn (Option.some_ne_none o).symm, Nat.one_pos, fun key n => iff_of_false List.not_mem_nil ?_,
    List.Pairwise.nil⟩
  rintro ⟨o, ho, -⟩
  cases ho

/-- After any run the registry holds the sessions that have not been closed, in the order they were opened, each under its
key, and so never two under one. -/
theorem open_sessions [DecidableEq V] {minutes now : Int} {es : List (Event P V B)}
    (hr : run Sessions.step (start minutes now) es = some w) :
    (∀ n, n ∈ w.all ↔ ∃ o, w.session n = some o ∧ o.session.closed = false) ∧ w.all.Pairwise (· < ·) ∧
      ∀ key n, w.byKey key = some n ↔ ∃ o, w.session n = some o ∧ o.session.key = key ∧ o.session.closed = false := by
  have h : Registered w :=
    trace_inv_all (fun _ w => Registered w) (registered_start minutes now) (fun _ _ _ _ h he => h.step he) hr
  refine ⟨fun n => ?_, h.order, fun key n => LinkedMap.get?_eq_some.trans (h.live key n)⟩
  constructor
  · intro hn
    obtain ⟨⟨key, n⟩, he, rfl⟩ := List.mem_map.1 hn
    obtain ⟨o, ho, -, hopen⟩ := (h.live key n).1 he
    exact ⟨o, ho, hopen⟩
  · rintro ⟨o, ho, hopen⟩
    exact List.mem_map.2 ⟨(o.session.key, n), (h.live _ n).2 ⟨o, ho, rfl, hopen⟩, rfl⟩

/-- A second session for a target replaces the first. -/
theorem open_sessions_replaced : ∃ w : Sessions Nat Nat Nat,
    run Sessions.step (start 0 0)
      [.openSession (lit "id:1") none, .openSession (lit "id:2") none, .openSession (lit "id:1") none] = some w ∧
      w.all.Pairwise (· < ·) ∧ ∃ o, w.session 3 = some o ∧ o.session.key = lit "id:1" ∧ o.session.closed = false := by
  have hr : ∃ w : Sessions Nat Nat Nat, run Sessions.step (start 0 0)
      [.openSession (lit "id:1") none, .openSession (lit "id:2") none, .openSession (lit "id:1") none] = some w ∧
        w.byKey (lit "id:1") = some 3 := ⟨_, rfl, rfl⟩
  obtain ⟨w, hr, hkey⟩ := hr
  obtain ⟨-, horder, hreg⟩ := open_sessions w hr
  exact ⟨w, hr, horder, (hreg _ 3).1 hkey⟩

/-! ## The alarms -/

/-- A backend that has closed reports nothing else: CLOSED is terminal. -/
def Terminal (w : Sessions P V B) : Event P V B → Prop
  | .act n (.state st _) => (w.session n).any (fun o => o.session.state = .closed) → st = .closed
  | _ => True

/-- An alarm is of a session that is off screen, at its deadline; and one that has been on screen and is no longer has its
alarm, or it has gone off. -/
structure Timed (es : List (Event P V B)) (w : Sessions P V B) : Prop where
  seen : ∀ n visible, .onScreen n visible ∈ es → (w.session n).isSome
  alarm : ∀ n due key, w.alarms n = some (due, key) → ∃ o, w.session n = some o ∧ o.session.closed = false ∧
    o.session.onScreen = false ∧ o.session.key = key ∧ 0 < w.sessionTimeout ∧
      due = o.session.lastOnScreenAt + w.sessionTimeout * 60000
  armed : ∀ n o visible, w.session n = some o → .onScreen n visible ∈ es → o.session.alive = true →
    o.session.onScreen = false → 0 < w.sessionTimeout → (w.alarms n).isSome ∨ o.session.key ∈ w.firing

namespace Timed

variable {w} {es : List (Event P V B)}

omit [DecidableEq P] in
theorem append (h : Timed es w) {e : Event P V B} (he : ∀ n visible, e ≠ .onScreen n visible) : Timed (es ++ [e]) w := by
  have hmem : ∀ n visible, .onScreen n visible ∈ es ++ [e] → .onScreen n visible ∈ es := by
    intro n visible hm
    rcases List.mem_append.1 hm with hm | hm
    · exact hm
    · exact absurd (List.mem_singleton.1 hm).symm (he n visible)
  exact ⟨fun n v hm => h.seen n v (hmem n v hm), h.alarm, fun n o v hn hm => h.armed n o v hn (hmem n v hm)⟩

omit [DecidableEq P] in
/-- A session changes, but nothing that its alarm is of. -/
theorem update (h : Timed es w) {n : Nat} {o o' : Opened P V B} (hn : w.session n = some o)
    (hcore : core o'.session = core o.session) (halive : o'.session.alive = true → o.session.alive = true) :
    Timed es { w with session := Function.update w.session n (some o') } := by
  simp only [core, Prod.mk.injEq] at hcore
  obtain ⟨hkey, hlast, hscreen, hclosed⟩ := hcore
  refine ⟨?_, ?_, ?_⟩
  · intro m v hm
    dsimp only
    by_cases hmn : m = n
    · rw [hmn, Function.update_self]
      rfl
    · rw [Function.update_of_ne hmn]
      exact h.seen m v hm
  · intro m due key hm
    obtain ⟨u, hu, hopen, hoff, hk, hpos, hdue⟩ := h.alarm m due key hm
    by_cases hmn : m = n
    · subst hmn
      cases hn.symm.trans hu
      exact ⟨o', Function.update_self _ _ _, hclosed.trans hopen, hscreen.trans hoff, hkey.trans hk, hpos, by rw [hlast, hdue]⟩
    · exact ⟨u, (Function.update_of_ne hmn _ _).trans hu, hopen, hoff, hk, hpos, hdue⟩
  · intro m u v hm hseen ha hoff hpos
    dsimp only at hm ⊢
    by_cases hmn : m = n
    · subst hmn
      rw [Function.update_self] at hm
      cases hm
      rw [hkey]
      exact h.armed m o v hn hseen (halive ha) (hscreen.symm.trans hoff) hpos
    · rw [Function.update_of_ne hmn] at hm
      exact h.armed m u v hm hseen ha hoff hpos

omit [DecidableEq P] in
/-- A session that has closed has no alarm and needs none. -/
theorem ended (h : Timed es w) (n : Nat) {o' : Opened P V B} (ho : o'.session.closed = true) (live : LinkedMap Text Nat) :
    Timed es { w with
      session := Function.update w.session n (some o')
      live
      alarms := Function.update w.alarms n none } := by
  refine ⟨?_, ?_, ?_⟩
  · intro m v hm
    dsimp only
    by_cases hmn : m = n
    · rw [hmn, Function.update_self]
      rfl
    · rw [Function.update_of_ne hmn]
      exact h.seen m v hm
  · intro m due key hm
    dsimp only at hm ⊢
    by_cases hmn : m = n
    · rw [hmn, Function.update_self] at hm
      cases hm
    · rw [Function.update_of_ne hmn] at hm ⊢
      exact h.alarm m due key hm
  · intro m u v hm hseen ha hoff hpos
    dsimp only at hm ⊢
    by_cases hmn : m = n
    · rw [hmn, Function.update_self] at hm
      cases hm
      simp [Session.alive, ho] at ha
    · rw [Function.update_of_ne hmn] at hm ⊢
      exact h.armed m u v hm hseen ha hoff hpos

omit [DecidableEq P] in
theorem no_alarm (h : Timed es w) {n : Nat} {o : Opened P V B} (hn : w.session n = some o) (ho : o.session.closed = true) :
    w.alarms n = none := by
  refine Option.eq_none_iff_forall_ne_some.2 ?_
  rintro ⟨due, key⟩ ha
  obtain ⟨u, hu, hopen, -⟩ := h.alarm n due key ha
  cases hn.symm.trans hu
  exact Bool.false_ne_true (hopen.symm.trans ho)

theorem close (h : Timed es w) (n : Nat) : Timed es (w.close n) := by
  cases hn : w.session n with
  | none => rwa [close_of_none w hn]
  | some o =>
    cases ho : o.session.closed with
    | true => rwa [close_of_closed w hn ho]
    | false =>
      have hcore := core_close o
      simp only [core, Prod.mk.injEq] at hcore
      rw [close_eq w hn ho]
      exact h.ended n hcore.2.2.2 _

/-- The same of one that changes as it closes. -/
theorem modify_close (h : Timed es w) {n : Nat} {f : Opened P V B → Opened P V B}
    (hf : ∀ o : Opened P V B, (f o).session.closed = o.session.closed) : Timed es ((w.modify n f).close n) := by
  cases hn : w.session n with
  | none =>
    have hsame : w.modify n f = w := by
      rw [modify, hn, Option.map_none, ← hn, Function.update_eq_self]
    rw [hsame]
    exact h.close n
  | some o =>
    rw [modify_eq w hn]
    have hself := Function.update_self n (some (f o)) w.session
    cases ho : o.session.closed with
    | true =>
      rw [close_of_closed { w with session := Function.update w.session n (some (f o)) } hself ((hf o).trans ho)]
      have hended := h.ended n ((hf o).trans ho) w.live
      rwa [← h.no_alarm hn ho, Function.update_eq_self] at hended
    | false =>
      have hcore := core_close (f o)
      simp only [core, Prod.mk.injEq] at hcore
      rw [close_eq { w with session := Function.update w.session n (some (f o)) } hself ((hf o).trans ho)]
      dsimp only
      rw [Function.update_idem]
      exact h.ended n hcore.2.2.2 _

omit [DecidableEq P] in
theorem of_deadline {n : Nat} {due : Int} {key : Text} (h : w.deadline n = some (due, key)) :
    ∃ o, w.session n = some o ∧ o.session.closed = false ∧ o.session.onScreen = false ∧ o.session.key = key ∧
      0 < w.sessionTimeout ∧ due = o.session.lastOnScreenAt + w.sessionTimeout * 60000 := by
  obtain ⟨o, ho, hd⟩ := Option.bind_eq_some_iff.1 h
  obtain ⟨⟨ha, hoff, hpos⟩, heq⟩ := Option.ite_none_right_eq_some.1 hd
  cases heq
  have hopen : o.session.closed = false := by
    simp only [Session.alive, Bool.and_eq_true, Bool.not_eq_true'] at ha
    exact ha.1
  exact ⟨o, ho, hopen, hoff, rfl, hpos, rfl⟩

omit [DecidableEq P] in
theorem deadline_isSome {n : Nat} {o : Opened P V B} (hn : w.session n = some o) (ha : o.session.alive = true)
    (hoff : o.session.onScreen = false) (hpos : 0 < w.sessionTimeout) : (w.deadline n).isSome := by
  rw [deadline, hn, Option.bind_some, if_pos ⟨ha, hoff, hpos⟩]
  rfl

omit [DecidableEq P] in
/-- Whatever the visibility was, the alarm is for what it is now. -/
theorem onScreen (h : Timed es w) {n : Nat} (hn : (w.session n).isSome) (visible : Bool) :
    Timed (es ++ [.onScreen n visible]) (w.onScreen n visible) := by
  obtain ⟨o, ho⟩ := Option.isSome_iff_exists.1 hn
  rw [Sessions.onScreen, rearmTimeout_eq, modify_eq w ho]
  refine ⟨?_, ?_, ?_⟩
  · intro m v hm
    dsimp only
    by_cases hmn : m = n
    · rw [hmn, Function.update_self]
      rfl
    · rw [Function.update_of_ne hmn]
      rcases List.mem_append.1 hm with hm | hm
      · exact h.seen m v hm
      · cases List.mem_singleton.1 hm
        exact absurd rfl hmn
  · intro m due key hm
    dsimp only at hm
    by_cases hmn : m = n
    · subst hmn
      rw [Function.update_self] at hm
      exact of_deadline hm
    · rw [Function.update_of_ne hmn] at hm
      obtain ⟨u, hu, hrest⟩ := h.alarm m due key hm
      exact ⟨u, (Function.update_of_ne hmn _ _).trans hu, hrest⟩
  · intro m u v hm hseen ha hoff hpos
    dsimp only
    by_cases hmn : m = n
    · subst hmn
      rw [Function.update_self]
      exact .inl (deadline_isSome hm ha hoff hpos)
    · rw [Function.update_of_ne hmn]
      dsimp only at hm
      rw [Function.update_of_ne hmn] at hm
      refine h.armed m u v hm ?_ ha hoff hpos
      rcases List.mem_append.1 hseen with hseen | hseen
      · exact hseen
      · cases List.mem_singleton.1 hseen
        exact absurd rfl hmn

omit [DecidableEq P] in
/-- The sessions that are not registered have closed, and so have no alarm to move. -/
theorem timeoutChanged (h : Timed es w) (hreg : Registered w) (minutes : Int) : Timed es (w.timeoutChanged minutes) := by
  rw [Sessions.timeoutChanged, rearmAll_eq]
  have hin : ∀ n o, w.session n = some o → o.session.closed = false → n ∈ w.all := fun n o hn ho =>
    List.mem_map.2 ⟨(o.session.key, n), (hreg.live _ n).2 ⟨o, hn, rfl, ho⟩, rfl⟩
  refine ⟨h.seen, ?_, ?_⟩
  · intro n due key hn
    change (if n ∈ w.all then _ else w.alarms n) = _ at hn
    by_cases hall : n ∈ w.all
    · rw [if_pos hall] at hn
      exact of_deadline hn
    · rw [if_neg hall] at hn
      obtain ⟨o, ho, hopen, -⟩ := h.alarm n due key hn
      exact absurd (hin n o ho hopen) hall
  · intro n o v hn _ ha hoff hpos
    have hopen : o.session.closed = false := by
      simp only [Session.alive, Bool.and_eq_true, Bool.not_eq_true'] at ha
      exact ha.1
    change ((if n ∈ w.all then _ else w.alarms n : Option (Int × Text)).isSome = true) ∨ _
    rw [if_pos (hin n o hn hopen)]
    exact .inl (deadline_isSome hn ha hoff hpos)

omit [DecidableEq P] in
/-- A new session has not been on a screen. -/
theorem opened (h : Timed es w) (hreg : Registered w) (o : Opened P V B) (live : LinkedMap Text Nat) :
    Timed es { w with
      session := Function.update w.session w.nextNotification (some o)
      nextNotification := w.nextNotification + 1
      live } := by
  have hnew : w.session w.nextNotification = none := by
    refine Option.eq_none_iff_forall_ne_some.2 fun u hu => ?_
    exact absurd (hreg.known _ u hu).2 (Nat.lt_irrefl _)
  refine ⟨?_, ?_, ?_⟩
  · intro m v hm
    dsimp only
    by_cases hmn : m = w.nextNotification
    · rw [hmn, Function.update_self]
      rfl
    · rw [Function.update_of_ne hmn]
      exact h.seen m v hm
  · intro m due key hm
    obtain ⟨u, hu, hrest⟩ := h.alarm m due key hm
    have hmn : m ≠ w.nextNotification := by
      rintro rfl
      cases hnew.symm.trans hu
    exact ⟨u, (Function.update_of_ne hmn _ _).trans hu, hrest⟩
  · intro m u v hm hseen ha hoff hpos
    have hmn : m ≠ w.nextNotification := by
      rintro rfl
      have hsome := h.seen _ v hseen
      rw [hnew] at hsome
      cases hsome
    exact h.armed m u v ((Function.update_of_ne hmn _ _).symm.trans hm) hseen ha hoff hpos

theorem openSession (h : Timed es w) (hreg : Registered w) (key : Text) (thrown : Option (Option Text × Text)) :
    Timed es (w.openSession key thrown) := by
  have h' : Timed es (w.closeWas key) := by
    rw [closeWas]
    cases w.byKey key with
    | none => exact h
    | some was => exact h.close was
  obtain ⟨hreg', -⟩ := hreg.freed key
  unfold Sessions.openSession
  generalize w.closeWas key = w' at h' hreg' ⊢
  have hnew := h'.opened hreg' ⟨{ key, notification := w'.nextNotification, lastOnScreenAt := w'.now }, fun _ => {}, []⟩
    (w'.live.put key w'.nextNotification)
  cases thrown with
  | none => exact hnew
  | some e =>
    dsimp only [add]
    rw [modify_eq _ (Function.update_self _ _ _)]
    refine hnew.update (Function.update_self _ _ _) rfl ?_
    intro _
    rfl

omit [DecidableEq P] in
/-- An alarm that goes off is on its way. -/
theorem fire (h : Timed es w) {n : Nat} {due : Int} {key : Text} (hn : w.alarms n = some (due, key)) :
    Timed es { w with alarms := Function.update w.alarms n none, firing := w.firing ++ [key] } := by
  refine ⟨h.seen, ?_, ?_⟩
  · intro m d k hm
    dsimp only at hm
    by_cases hmn : m = n
    · rw [hmn, Function.update_self] at hm
      cases hm
    · rw [Function.update_of_ne hmn] at hm
      exact h.alarm m d k hm
  · intro m u v hm hseen ha hoff hpos
    dsimp only at hm ⊢
    rw [List.mem_append, List.mem_singleton]
    by_cases hmn : m = n
    · subst hmn
      obtain ⟨u', hu', -, -, hk, -⟩ := h.alarm m due key hn
      cases hm.symm.trans hu'
      exact .inr (.inr hk)
    · rw [Function.update_of_ne hmn]
      exact (h.armed m u v hm hseen ha hoff hpos).imp_right .inl

omit [DecidableEq P] in
/-- An alarm on its way is not missed where it is for nothing that waits for it. -/
theorem erase (h : Timed es w) (key : Text) (hno : ∀ n o, w.session n = some o → o.session.key = key → o.session.alive = true →
    o.session.onScreen = false → 0 < w.sessionTimeout → False) : Timed es { w with firing := w.firing.erase key } := by
  refine ⟨h.seen, h.alarm, ?_⟩
  intro n o v hn hseen ha hoff hpos
  have hne : o.session.key ≠ key := fun hk => hno n o hn hk ha hoff hpos
  exact (h.armed n o v hn hseen ha hoff hpos).imp_right (List.mem_erase_of_ne hne).2

/-- What the receiver is given closes the session it is for, if that still waits for it. -/
theorem receive [DecidableEq V] (h : Timed es w) (hreg : Registered w) {key label : Text}
    {during : List (BackendState × Option Text)} {w' : Sessions P V B} (hr : w.step (.receive key label during) = some w') :
    Timed es w' := by
  have hreg' := hreg.step hr
  obtain ⟨-, hr⟩ := Option.ite_none_right_eq_some.1 hr
  cases hr
  have hkey : ∀ {u : Sessions P V B}, Registered u → ∀ {n o}, u.session n = some o → o.session.key = key →
      o.session.alive = true → u.byKey key = some n := by
    intro u hu n o hn hk ha
    simp only [Session.alive, Bool.and_eq_true, Bool.not_eq_true'] at ha
    exact LinkedMap.get?_eq_some.2 ((hu.live key n).2 ⟨o, hn, hk, ha.1⟩)
  rw [onReceive] at hreg' ⊢
  cases hb : w.byKey key with
  | none =>
    rw [show byKey { w with firing := w.firing.erase key } key = none from hb]
    refine h.erase key fun n o hn hk ha _ _ => ?_
    cases hb.symm.trans (hkey hreg hn hk ha)
  | some n =>
    rw [show byKey { w with firing := w.firing.erase key } key = some n from hb] at hreg' ⊢
    dsimp only at hreg' ⊢
    by_cases htimes : (w.session n).any (·.timesOut w.sessionTimeout) = true
    · rw [if_pos htimes] at hreg' ⊢
      rw [show modify { w with firing := w.firing.erase key } n _ = { w.modify n _ with firing := w.firing.erase key } from rfl,
        close_firing] at hreg' ⊢
      have hclosed := h.modify_close (n := n)
        (f := fun o => (o.backendDisconnect during).on (·.setDetail (Opened.timeoutReason label)))
        fun o => Opened.backendDisconnect_closed o during
      have herased := hclosed.erase key ?_
      · rwa [firing_close] at herased
      · intro m u hm hk ha _ _
        rw [close_session, modify] at hm
        dsimp only at hm
        rw [Function.update_idem, Function.update_self] at hm
        by_cases hmn : m = n
        · rw [hmn, Function.update_self] at hm
          obtain ⟨o, -, rfl⟩ := Option.map_eq_some_iff.1 hm
          have hcore := core_close o
          simp only [core, Prod.mk.injEq] at hcore
          simp [Session.alive, hcore.2.2.2] at ha
        · rw [Function.update_of_ne hmn] at hm
          exact hmn (Option.some.inj ((hkey hreg hm hk ha).symm.trans hb))
    · rw [if_neg htimes]
      refine h.erase key fun m o hm hk ha hoff hpos => htimes ?_
      cases hb.symm.trans (hkey hreg hm hk ha)
      rw [hm]
      simpa [Opened.timesOut, ha, hoff] using hpos

theorem alive_of_step [DecidableEq V] {n : Nat} {o o' : Opened P V B} {a : Act P V B} (hn : w.session n = some o)
    (hord : a.ordinary = true) (hterm : w.Terminal (.act n a)) (ha : o.step a = some o') (halive : o'.session.alive = true) :
    o.session.alive = true := by
  have hbut : ∀ {s s' : Session P V B}, Opened.SameBut s s' → s'.alive = s.alive := by
    rintro s s' ⟨pending, rfl⟩
    rfl
  cases a with
  | ask p =>
    obtain ⟨-, ha⟩ := Option.ite_none_right_eq_some.1 ha
    cases ha
    rwa [hbut (o.queue_session p)] at halive
  | answer p ok =>
    obtain ⟨-, ha⟩ := Option.ite_none_right_eq_some.1 ha
    cases ha
    rwa [Opened.answer_session] at halive
  | withdraw p =>
    obtain ⟨-, ha⟩ := Option.ite_none_right_eq_some.1 ha
    cases ha
    rwa [hbut (o.withdraw_session p)] at halive
  | attach v live relative =>
    cases ha
    rw [Opened.attach, hbut (Opened.flushPrompts_session _), Opened.on_session, Session.catchUp] at halive
    by_cases hst : o.session.state = .closed
    · rw [Session.reread, if_pos hst, if_neg (by simp)] at halive
      exact halive
    · obtain ⟨st, d, heq⟩ := o.session.reread_eq live
      rw [heq] at halive
      simp only [Session.alive, Bool.and_eq_true, Bool.not_eq_true', decide_eq_true_eq] at halive ⊢
      exact ⟨halive.1, by simpa using hst⟩
  | state st d =>
    cases ha
    have hcore := core_onStates o.session [(st, d)]
    simp only [core, Prod.mk.injEq] at hcore
    by_cases hst : o.session.state = .closed
    · have hc : st = .closed := hterm (by simp [hn, hst])
      rw [hc, Opened.on_session, Session.onState] at halive
      split at halive
      · exact halive
      · simp [Session.alive, Session.report] at halive
    · simp only [Session.alive, Bool.and_eq_true, Bool.not_eq_true', decide_eq_true_eq] at halive ⊢
      exact ⟨hcore.2.2.2.symm.trans halive.1, by simpa using hst⟩
  | status text =>
    cases ha
    rw [Opened.on_session, Session.onStatus] at halive
    split at halive <;> exact halive
  | detach v =>
    cases ha
    rw [Opened.on_session, Session.detach] at halive
    split at halive <;> exact halive
  | desktopSize size => cases ha; exact halive
  | cursor shape hot => cases ha; exact halive
  | pointerMode relative => cases ha; exact halive
  | _ => cases hord

theorem step [DecidableEq V] {w' : Sessions P V B} {e : Event P V B} (h : Timed es w) (hreg : Registered w)
    (hterm : Terminal w e) (he : w.step e = some w') : Timed (es ++ [e]) w' := by
  cases e with
  | openSession key thrown =>
    cases he
    exact (h.openSession hreg key thrown).append (by simp)
  | act n a =>
    obtain ⟨hord, he⟩ := Option.ite_none_right_eq_some.1 he
    obtain ⟨o', ho', rfl⟩ := Option.map_eq_some_iff.1 he
    obtain ⟨o, hn, ha⟩ := Option.bind_eq_some_iff.1 ho'
    exact (h.update hn (core_step hord ha) (alive_of_step hn hord hterm ha)).append (by simp)
  | onScreen n visible =>
    obtain ⟨hn, he⟩ := Option.ite_none_right_eq_some.1 he
    cases he
    exact h.onScreen hn visible
  | disconnect n during =>
    obtain ⟨-, he⟩ := Option.ite_none_right_eq_some.1 he
    cases he
    refine (h.modify_close fun o => ?_).append (by simp)
    exact Opened.backendDisconnect_closed (o.on fun s => { s with leaving := true }) during
  | close n =>
    cases he
    exact (h.close n).append (by simp)
  | timeoutChanged minutes =>
    cases he
    exact (h.timeoutChanged hreg (max 0 minutes)).append (by simp)
  | tick ms =>
    cases he
    have h' : Timed es { w with now := w.now + ms } := ⟨h.seen, h.alarm, h.armed⟩
    exact h'.append (by simp)
  | fire n =>
    rw [Sessions.step] at he
    split at he
    · next hn =>
      obtain ⟨-, he⟩ := Option.ite_none_right_eq_some.1 he
      cases he
      exact (h.fire hn).append (by simp)
    · cases he
  | receive key label during => exact (h.receive hreg he).append (by simp)

end Timed

/-- After any run an alarm is of a session that is open and off screen, at a whole timeout after a screen last showed it. And a
session that has been on screen, is no longer, and has not ended, has that alarm, or the receiver is still to be given it. -/
theorem alarms_in_time [DecidableEq V] {minutes now : Int} {es : List (Event P V B)}
    (hm : Meets Sessions.step Terminal (start minutes now) es) (hr : run Sessions.step (start minutes now) es = some w) :
    (∀ n due key, w.alarms n = some (due, key) → ∃ o, w.session n = some o ∧ o.session.closed = false ∧
      o.session.onScreen = false ∧ o.session.key = key ∧ 0 < w.sessionTimeout ∧
        due = o.session.lastOnScreenAt + w.sessionTimeout * 60000) ∧
      ∀ n o visible, w.session n = some o → .onScreen n visible ∈ es → o.session.alive = true → o.session.onScreen = false →
        0 < w.sessionTimeout →
          w.alarms n = some (o.session.lastOnScreenAt + w.sessionTimeout * 60000, o.session.key) ∨ o.session.key ∈ w.firing := by
  have h : Registered w ∧ Timed es w := by
    refine trace_inv (fun es w => Registered w ∧ Timed es w) ?_ ?_ hm hr
    · refine ⟨registered_start minutes now, ?_, ?_, ?_⟩
      · intro n v hn
        cases hn
      · intro n due key hn
        cases hn
      · intro n o v hn
        cases hn
    · rintro tr s e s' ⟨hreg, htimed⟩ hok he
      exact ⟨hreg.step he, htimed.step hreg hok he⟩
  refine ⟨h.2.alarm, ?_⟩
  intro n o v hn hseen ha hoff hpos
  refine (h.2.armed n o v hn hseen ha hoff hpos).imp_left fun hsome => ?_
  obtain ⟨⟨due, key⟩, halarm⟩ := Option.isSome_iff_exists.1 hsome
  obtain ⟨u, hu, -, -, hk, -, hdue⟩ := h.2.alarm n due key halarm
  cases hn.symm.trans hu
  rw [halarm, hdue, hk]

/-- One goes off screen, and the setting is shortened. -/
theorem alarms_in_time_shortened : ∃ w : Sessions Nat Nat Nat,
    run Sessions.step (start 60 0)
      [.openSession (lit "id:1") none, .onScreen 1 true, .tick 500, .onScreen 1 false, .timeoutChanged 5] = some w ∧
      (w.alarms 1 = some (300500, lit "id:1") ∨ lit "id:1" ∈ w.firing) := by
  have hr : ∃ (w : Sessions Nat Nat Nat) (o : Opened Nat Nat Nat), run Sessions.step (start 60 0)
      [.openSession (lit "id:1") none, .onScreen 1 true, .tick 500, .onScreen 1 false, .timeoutChanged 5] = some w ∧
        w.session 1 = some o ∧ o.session.alive = true ∧ o.session.onScreen = false ∧ 0 < w.sessionTimeout ∧
          o.session.lastOnScreenAt + w.sessionTimeout * 60000 = 300500 ∧ o.session.key = lit "id:1" :=
    ⟨_, _, rfl, rfl, rfl, rfl, by decide, by decide, rfl⟩
  obtain ⟨w, o, hr, hn, ha, hoff, hpos, hdue, hkey⟩ := hr
  have hm : Meets Sessions.step Terminal (start 60 0 : Sessions Nat Nat Nat)
      [.openSession (lit "id:1") none, .onScreen 1 true, .tick 500, .onScreen 1 false, .timeoutChanged 5] :=
    ⟨trivial, fun _ _ => ⟨trivial, fun _ _ => ⟨trivial, fun _ _ => ⟨trivial, fun _ _ => ⟨trivial, fun _ _ => trivial⟩⟩⟩⟩⟩
  have h := (alarms_in_time w hm hr).2 1 o true hn (by simp) ha hoff hpos
  rw [hdue, hkey] at h
  exact ⟨w, hr, h⟩

end Sessions

end Vento.App
