import Mathlib.Logic.Function.Basic
import Vento.Lib.Runs
/-!
# The session's sound switch

`Controls` of `media/audio/mod.rs`: what a backend offers, what the user's switch asks of it
and what the session's listener is told. Calls come from any threads. Each field is under a
mutex of its own, taken and released within a call, so a call is a few atomic steps with any
other call's between them: `Pc` is where a thread is in one. The listener alone is called
with its mutex held, while the streams and then the offer and the mute are looked at.

`sound_consistent`: once every call has returned, the listener's last word is the sound as it
is, whatever the order of the steps; and the backend's is the flag, unless a call that
changes either crosses one that has not yet told the backend. `crossing_enables` is two
turns of the switch that do.
-/

namespace Vento.Audio.Controls

open Vento.Lib

inductive Switch where
  | mute
  | enable
deriving DecidableEq, Repr

structure Offer where
  switch : Option Switch
  enabled : Bool
deriving DecidableEq, Repr

/-- The session's sound as a switch shows it. -/
structure Sound where
  switch : Option Switch
  enabled : Bool
  muted : Bool
  playing : Bool
deriving DecidableEq, Repr

/-- The methods that change anything a switch shows, or say it. -/
inductive Call where
  | setGain (bits : Nat)
  | setMuted (muted : Bool)
  | offerMute
  | offerEnable (enabled : Bool)
  | withdraw
  | setEnabled (on : Bool)
  | onSound
  | streamPlaying (queue : Nat) (started : Bool)
deriving DecidableEq, Repr

/-- Where a thread is in a call. -/
inductive Pc where
  | idle
  | entered (call : Call)
  /-- In `set_enabled`: the flag is set, the backend is still to be asked. -/
  | recorded (on : Bool)
  /-- In an offer: the function is replaced, what is offered is still to be set. -/
  | replaced (switch : Option Switch) (enabled : Bool)
  /-- Before `changed`. -/
  | changed
  /-- In `changed`, the listener locked and the streams looked at. -/
  | reading (playing : Bool)
  /-- In `changed`, with the sound it is about to say. -/
  | telling (sound : Sound)
deriving DecidableEq, Repr

/-- The controls, the threads in them, and the last word each of the two functions handed in
had: the backend's and the listener's, none before it is called. -/
structure State where
  gain : Nat
  muted : Bool
  streams : List Nat
  offer : Offer
  enable : Option (Option Bool)
  listener : Option (Option Sound)
  held : Bool
  pcs : Nat → Pc

def new : State := ⟨1, false, [], ⟨none, true⟩, none, none, false, fun _ => .idle⟩

namespace State

def playing (s : State) : Bool := !s.streams.isEmpty

def enabled (s : State) : Bool := s.offer.enabled

/-- The sound, from the streams looked at before. -/
def soundWith (s : State) (playing : Bool) : Sound :=
  ⟨s.offer.switch.or (if playing then some .mute else none), s.offer.enabled || s.offer.switch ≠ some .enable, s.muted, playing⟩

def sound (s : State) : Sound := s.soundWith s.playing

def goes (s : State) (t : Nat) (pc : Pc) : State := { s with pcs := Function.update s.pcs t pc }

/-- A call's first step; none where it waits for the listener's mutex. -/
def enter (s : State) (t : Nat) : Call → Option State
  | .setGain bits => some ({ s with gain := bits }.goes t .idle)
  | .setMuted muted => some ({ s with muted := muted }.goes t (if s.muted ≠ muted then .changed else .idle))
  | .offerMute => some ({ s with enable := none }.goes t (.replaced (some .mute) true))
  | .offerEnable enabled => some ({ s with enable := some none }.goes t (.replaced (some .enable) enabled))
  | .withdraw => some ({ s with enable := none }.goes t (.replaced none true))
  | .setEnabled on =>
    if s.offer.switch ≠ some .enable ∨ s.offer.enabled = on then some (s.goes t .idle)
    else some ({ s with offer := { s.offer with enabled := on } }.goes t (.recorded on))
  | .onSound => if s.held then none else some ({ s with listener := some none }.goes t .idle)
  | .streamPlaying queue started =>
    let streams := if started then s.streams ++ [queue] else s.streams.filter (· ≠ queue)
    some ({ s with streams := streams }.goes t (if s.streams.isEmpty ≠ streams.isEmpty then .changed else .idle))

/-- A thread's next step. -/
def go (s : State) (t : Nat) : Option State :=
  match s.pcs t with
  | .idle => none
  | .entered call => s.enter t call
  | .recorded on => some ({ s with enable := s.enable.map fun _ => some on }.goes t .changed)
  | .replaced switch enabled => some ({ s with offer := ⟨switch, enabled⟩ }.goes t .changed)
  | .changed =>
    if s.held then none
    else if s.listener.isNone then some (s.goes t .idle)
    else some ({ s with held := true }.goes t (.reading s.playing))
  | .reading playing => some (s.goes t (.telling (s.soundWith playing)))
  | .telling sound => some ({ s with listener := some (some sound), held := false }.goes t .idle)

end State

inductive Act where
  | call (t : Nat) (call : Call)
  | go (t : Nat)
deriving DecidableEq, Repr

def step (s : State) : Act → Option State
  | .call t call => if s.pcs t = .idle then some (s.goes t (.entered call)) else none
  | .go t => s.go t

def Act.thread : Act → Nat
  | .call t _ => t
  | .go t => t

/-- A step is one thread's. -/
theorem step_pcs {s s' : State} {a : Act} (hs : step s a = some s') : ∃ pc, s'.pcs = Function.update s.pcs a.thread pc := by
  cases a with
  | call t call =>
    unfold step at hs
    dsimp only at hs
    split at hs
    · cases hs
      exact ⟨_, rfl⟩
    · cases hs
  | go t =>
    change s.go t = some s' at hs
    unfold State.go at hs
    split at hs
    · cases hs
    · rename_i call _
      cases call with
      | setEnabled on =>
        unfold State.enter at hs
        dsimp only at hs
        split at hs
        · cases hs
          exact ⟨_, rfl⟩
        · cases hs
          exact ⟨_, rfl⟩
      | onSound =>
        unfold State.enter at hs
        dsimp only at hs
        split at hs
        · cases hs
        · cases hs
          exact ⟨_, rfl⟩
      | _ =>
        cases hs
        exact ⟨_, rfl⟩
    · cases hs
      exact ⟨_, rfl⟩
    · cases hs
      exact ⟨_, rfl⟩
    · split at hs
      · cases hs
      split at hs
      · cases hs
        exact ⟨_, rfl⟩
      · cases hs
        exact ⟨_, rfl⟩
    · cases hs
      exact ⟨_, rfl⟩
    · cases hs
      exact ⟨_, rfl⟩

/-- A thread that made no call is not in one. -/
theorem idle_of_not_called {acts : List Act} {s : State} (hr : run step new acts = some s) {t : Nat}
    (ht : ∀ a ∈ acts, a.thread ≠ t) : s.pcs t = .idle := by
  refine trace_inv_all (fun acts s => (∀ a ∈ acts, a.thread ≠ t) → s.pcs t = .idle) (fun _ => rfl) ?_ hr ht
  intro tr s a s' ih hs hne
  obtain ⟨pc, hpcs⟩ := step_pcs hs
  rw [hpcs, Function.update_of_ne (hne a (by simp)).symm]
  exact ih fun b hb => hne b (by simp [hb])

/-- Every call has returned. -/
def Quiet (s : State) : Prop := ∀ t, s.pcs t = .idle

/-! ## The listener -/

/-- A `changed` is still to come. -/
def Pc.owes : Pc → Bool
  | .changed | .recorded _ => true
  | _ => false

/-- It has the listener's mutex. -/
def Pc.holds : Pc → Bool
  | .reading _ | .telling _ => true
  | _ => false

def Owed (s : State) : Prop := ∃ t, (s.pcs t).owes = true

/-- Whatever the listener was told, or is about to be, is the sound as it is, unless someone
is still to tell it. -/
structure Told (s : State) : Prop where
  held : ∀ t, (s.pcs t).holds = true → s.held = true
  one : ∀ t u, (s.pcs t).holds = true → (s.pcs u).holds = true → t = u
  reading : ∀ t playing, s.pcs t = .reading playing → playing = s.playing ∨ Owed s
  telling : ∀ t sound, s.pcs t = .telling sound → sound = s.sound ∨ Owed s
  told : ∀ sound, s.listener = some (some sound) → sound = s.sound ∨ Owed s ∨ ∃ t, (s.pcs t).holds = true

section
variable {s s' : State} {t : Nat} {pc : Pc}

@[simp] theorem goes_pcs (s : State) (t : Nat) (pc : Pc) : (s.goes t pc).pcs = Function.update s.pcs t pc := rfl

theorem goes_self (s : State) (t : Nat) (pc : Pc) : (s.goes t pc).pcs t = pc := Function.update_self _ _ _

theorem goes_of_ne (s : State) {t u : Nat} (h : u ≠ t) (pc : Pc) : (s.goes t pc).pcs u = s.pcs u := Function.update_of_ne h _ _

/-- A step that changes what the listener is told about, and leaves its thread to tell it. -/
theorem Told.mutate (h : Told s) (hpcs : s'.pcs = Function.update s.pcs t pc) (hheld : s'.held = s.held)
    (ht : (s.pcs t).holds = false) (hpc : pc.owes = true) (hno : pc.holds = false) : Told s' := by
  have howed : Owed s' := ⟨t, by rw [hpcs, Function.update_self]; exact hpc⟩
  have hholds : ∀ u, (s'.pcs u).holds = true → (s.pcs u).holds = true ∧ u ≠ t := by
    intro u hu
    by_cases hut : u = t
    · subst hut
      rw [hpcs, Function.update_self, hno] at hu
      cases hu
    · rw [hpcs, Function.update_of_ne hut] at hu
      exact ⟨hu, hut⟩
  refine ⟨?_, ?_, fun _ _ _ => Or.inr howed, fun _ _ _ => Or.inr howed, fun _ _ => Or.inr (Or.inl howed)⟩
  · intro u hu
    rw [hheld]
    exact h.held u (hholds u hu).1
  · intro u v hu hv
    exact h.one u v (hholds u hu).1 (hholds v hv).1

/-- A step that changes nothing of it, by a thread that owes nothing. -/
theorem Told.quiet (h : Told s) (hpcs : s'.pcs = Function.update s.pcs t pc) (hheld : s'.held = s.held)
    (hsound : s'.sound = s.sound) (hplaying : s'.playing = s.playing)
    (hlistener : s'.listener = s.listener ∨ s'.listener = some none) (ht : (s.pcs t).owes = false)
    (ht' : (s.pcs t).holds = false) (hno : pc.holds = false) : Told s' := by
  have hne : ∀ u, (s.pcs u).owes = true ∨ (s.pcs u).holds = true → s'.pcs u = s.pcs u := by
    intro u hu
    by_cases hut : u = t
    · subst hut
      rcases hu with hu | hu
      · rw [ht] at hu; cases hu
      · rw [ht'] at hu; cases hu
    · rw [hpcs, Function.update_of_ne hut]
  have howed : Owed s → Owed s' := by
    rintro ⟨u, hu⟩
    exact ⟨u, by rw [hne u (Or.inl hu)]; exact hu⟩
  have hback : ∀ u, (s'.pcs u).holds = true → s'.pcs u = s.pcs u := by
    intro u hu
    by_cases hut : u = t
    · subst hut
      rw [hpcs, Function.update_self, hno] at hu
      cases hu
    · rw [hpcs, Function.update_of_ne hut]
  refine ⟨?_, ?_, ?_, ?_, ?_⟩
  · intro u hu
    rw [hheld]
    exact h.held u (by rw [← hback u hu]; exact hu)
  · intro u v hu hv
    exact h.one u v (by rw [← hback u hu]; exact hu) (by rw [← hback v hv]; exact hv)
  · intro u p hu
    have hb := hback u (by rw [hu]; rfl)
    rw [hplaying]
    exact (h.reading u p (by rw [← hb]; exact hu)).imp_right howed
  · intro u snd hu
    have hb := hback u (by rw [hu]; rfl)
    rw [hsound]
    exact (h.telling u snd (by rw [← hb]; exact hu)).imp_right howed
  · intro snd hl
    rw [hsound]
    rcases hlistener with hl' | hl'
    · rw [hl'] at hl
      rcases h.told snd hl with he | ho | ⟨u, hu⟩
      · exact Or.inl he
      · exact Or.inr (Or.inl (howed ho))
      · exact Or.inr (Or.inr ⟨u, by rw [hne u (Or.inr hu)]; exact hu⟩)
    · rw [hl'] at hl
      cases hl

theorem Told.enter (h : Told s) {call : Call} (hpc : s.pcs t = .entered call) (hs : s.enter t call = some s') : Told s' := by
  have ho : (s.pcs t).owes = false := by rw [hpc]; rfl
  have hh : (s.pcs t).holds = false := by rw [hpc]; rfl
  cases call with
  | setGain bits =>
    cases hs
    exact h.quiet rfl rfl rfl rfl (Or.inl rfl) ho hh rfl
  | setMuted muted =>
    cases hs
    by_cases hm : s.muted ≠ muted
    · rw [if_pos hm]
      exact h.mutate rfl rfl hh rfl rfl
    · rw [if_neg hm]
      have he : s.muted = muted := not_not.mp hm
      subst he
      exact h.quiet rfl rfl rfl rfl (Or.inl rfl) ho hh rfl
  | offerMute =>
    cases hs
    exact h.quiet rfl rfl rfl rfl (Or.inl rfl) ho hh rfl
  | offerEnable enabled =>
    cases hs
    exact h.quiet rfl rfl rfl rfl (Or.inl rfl) ho hh rfl
  | withdraw =>
    cases hs
    exact h.quiet rfl rfl rfl rfl (Or.inl rfl) ho hh rfl
  | setEnabled on =>
    unfold State.enter at hs
    dsimp only at hs
    split at hs
    · cases hs
      exact h.quiet rfl rfl rfl rfl (Or.inl rfl) ho hh rfl
    · cases hs
      exact h.mutate rfl rfl hh rfl rfl
  | onSound =>
    unfold State.enter at hs
    dsimp only at hs
    split at hs
    · cases hs
    · cases hs
      exact h.quiet rfl rfl rfl rfl (Or.inr rfl) ho hh rfl
  | streamPlaying queue started =>
    unfold State.enter at hs
    dsimp only at hs
    generalize (if started = true then s.streams ++ [queue] else s.streams.filter (· ≠ queue)) = streams at hs
    cases hs
    by_cases he : s.streams.isEmpty ≠ streams.isEmpty
    · rw [if_pos he]
      exact h.mutate rfl rfl hh rfl rfl
    · rw [if_neg he]
      have he' : s.streams.isEmpty = streams.isEmpty := not_not.mp he
      have hp : State.playing ({ s with streams := streams }.goes t .idle) = s.playing := congrArg (! ·) he'.symm
      refine h.quiet rfl rfl ?_ hp (Or.inl rfl) ho hh rfl
      unfold State.sound
      rw [hp]
      rfl

/-- A thread that owes nothing goes on: whoever owed still does. -/
theorem Owed.goes (h : Owed s) (hpcs : s'.pcs = Function.update s.pcs t pc) (ht : (s.pcs t).owes = false) : Owed s' := by
  obtain ⟨u, hu⟩ := h
  have hut : u ≠ t := by
    rintro rfl
    rw [ht] at hu
    cases hu
  exact ⟨u, by rw [hpcs, Function.update_of_ne hut]; exact hu⟩

theorem Told.lock (h : Told s) (hheld : s.held = false) (hs : s'.pcs = Function.update s.pcs t (.reading s.playing))
    (hp : s'.playing = s.playing) (hh : s'.held = true) : Told s' := by
  have hnone : ∀ u, u ≠ t → (s'.pcs u).holds = false := by
    intro u hut
    rw [hs, Function.update_of_ne hut]
    cases hu : (s.pcs u).holds with
    | false => rfl
    | true => rw [h.held u hu] at hheld; cases hheld
  have hone : ∀ u, (s'.pcs u).holds = true → u = t := by
    intro u hu
    by_contra hut
    rw [hnone u hut] at hu
    cases hu
  have hself : s'.pcs t = .reading s.playing := by rw [hs, Function.update_self]
  refine ⟨fun _ _ => hh, fun u v hu hv => (hone u hu).trans (hone v hv).symm, ?_, ?_, ?_⟩
  · intro u p hu
    cases hone u (by rw [hu]; rfl)
    rw [hself] at hu
    cases hu
    exact Or.inl hp.symm
  · intro u snd hu
    cases hone u (by rw [hu]; rfl)
    rw [hself] at hu
    cases hu
  · exact fun _ _ => Or.inr (Or.inr ⟨t, by rw [hself]; rfl⟩)

theorem Told.read (h : Told s) {playing : Bool} (hpc : s.pcs t = .reading playing) :
    Told (s.goes t (.telling (s.soundWith playing))) := by
  have ht : (s.pcs t).holds = true := by rw [hpc]; rfl
  have hself := goes_self s t (.telling (s.soundWith playing))
  have hone : ∀ u, ((s.goes t (.telling (s.soundWith playing))).pcs u).holds = true → u = t := by
    intro u hu
    by_contra hut
    rw [goes_of_ne s hut] at hu
    exact hut (h.one u t hu ht)
  refine ⟨fun _ _ => h.held t ht, fun u v hu hv => (hone u hu).trans (hone v hv).symm, ?_, ?_, ?_⟩
  · intro u p hu
    cases hone u (by rw [hu]; rfl)
    rw [hself] at hu
    cases hu
  · intro u snd hu
    cases hone u (by rw [hu]; rfl)
    rw [hself] at hu
    cases hu
    rcases h.reading t playing hpc with hp | ho
    · rw [hp]
      exact Or.inl rfl
    · exact Or.inr (ho.goes rfl (by rw [hpc]; rfl))
  · exact fun _ _ => Or.inr (Or.inr ⟨t, by rw [hself]; rfl⟩)

theorem Told.tell (h : Told s) {sound : Sound} (hpc : s.pcs t = .telling sound) :
    Told ({ s with listener := some (some sound), held := false }.goes t .idle) := by
  have ht : (s.pcs t).holds = true := by rw [hpc]; rfl
  generalize hs' : { s with listener := some (some sound), held := false }.goes t .idle = s'
  have hpcs : s'.pcs = Function.update s.pcs t .idle := by rw [← hs']; rfl
  have hnone : ∀ u, (s'.pcs u).holds = false := by
    intro u
    by_cases hut : u = t
    · subst hut
      rw [hpcs, Function.update_self]
      rfl
    · rw [hpcs, Function.update_of_ne hut]
      cases hu : (s.pcs u).holds with
      | false => rfl
      | true => exact absurd (h.one u t hu ht) hut
  have hno : ∀ u, ¬ (s'.pcs u).holds = true := fun u hu => by rw [hnone u] at hu; cases hu
  refine ⟨fun u hu => absurd hu (hno u), fun u _ hu _ => absurd hu (hno u),
    fun u p hu => absurd (by rw [hu]; rfl) (hno u), fun u snd hu => absurd (by rw [hu]; rfl) (hno u), ?_⟩
  intro snd hl
  have hsnd : s'.sound = s.sound := by rw [← hs']; rfl
  rw [← hs'] at hl
  cases hl
  rw [hsnd]
  exact (h.telling t sound hpc).imp_right fun ho => Or.inl (ho.goes hpcs (by rw [hpc]; rfl))

/-- No step leaves the listener with a word that nobody is still to put right. -/
theorem Told.step (h : Told s) (a : Act) (hs : step s a = some s') : Told s' := by
  cases a with
  | call t call =>
    unfold Controls.step at hs
    dsimp only at hs
    split at hs
    · rename_i hi
      cases hs
      exact h.quiet rfl rfl rfl rfl (Or.inl rfl) (by rw [hi]; rfl) (by rw [hi]; rfl) rfl
    · cases hs
  | go t =>
    change s.go t = some s' at hs
    unfold State.go at hs
    cases hpc : s.pcs t with
    | idle =>
      rw [hpc] at hs
      cases hs
    | entered call =>
      rw [hpc] at hs
      exact h.enter hpc hs
    | recorded on =>
      rw [hpc] at hs
      cases hs
      exact h.mutate rfl rfl (by rw [hpc]; rfl) rfl rfl
    | replaced switch enabled =>
      rw [hpc] at hs
      cases hs
      exact h.mutate rfl rfl (by rw [hpc]; rfl) rfl rfl
    | changed =>
      rw [hpc] at hs
      dsimp only at hs
      split at hs
      · cases hs
      rename_i hheld
      have hheld' : s.held = false := by simpa using hheld
      split at hs
      · rename_i hl
        cases hs
        have hl' : s.listener = none := by simpa using hl
        have hno : ∀ u, ¬ ((s.goes t .idle).pcs u).holds = true := by
          intro u hu
          by_cases hut : u = t
          · subst hut
            rw [goes_self] at hu
            cases hu
          · rw [goes_of_ne s hut] at hu
            exact hheld (h.held u hu)
        refine ⟨fun u hu => absurd hu (hno u), fun u _ hu _ => absurd hu (hno u),
          fun u p hu => absurd (by rw [hu]; rfl) (hno u), fun u snd hu => absurd (by rw [hu]; rfl) (hno u), ?_⟩
        intro snd hsnd
        rw [show (s.goes t .idle).listener = s.listener from rfl, hl'] at hsnd
        cases hsnd
      · cases hs
        exact h.lock hheld' rfl rfl rfl
    | reading playing =>
      rw [hpc] at hs
      cases hs
      exact h.read hpc
    | telling sound =>
      rw [hpc] at hs
      cases hs
      exact h.tell hpc

theorem told_new : Told new := by
  refine ⟨nofun, nofun, nofun, nofun, nofun⟩

end

/-! ## The backend -/

/-- Between changing the flag or the function and the backend's having the other's word. -/
def Pc.crosses : Pc → Bool
  | .recorded _ | .replaced _ _ => true
  | _ => false

def Alone (s : State) : Prop := ∀ t, (s.pcs t).crosses = false

/-- The step changes the flag by the switch, or begins an offer or a withdrawal. -/
def changes (s : State) (t : Nat) : Bool :=
  match s.pcs t with
  | .entered (.setEnabled on) => s.offer.switch = some .enable ∧ s.offer.enabled ≠ on
  | .entered .offerMute | .entered (.offerEnable _) | .entered .withdraw => true
  | _ => false

/-- No call changes the flag or the function while another is between its change and the
backend's being told. -/
def Apart (s : State) : Act → Prop
  | .call _ _ => True
  | .go t => changes s t = true → Alone s

/-- What the backend was passed is the flag, or its caller is still to pass it. -/
structure Passed (s : State) : Prop where
  one : ∀ t u, (s.pcs t).crosses = true → (s.pcs u).crosses = true → t = u
  recorded : ∀ t on, s.pcs t = .recorded on → s.enabled = on
  replaced : ∀ t switch enabled, s.pcs t = .replaced switch enabled → s.enable = none ∨ s.enable = some none
  passed : Alone s → ∀ on, s.enable = some (some on) → on = s.enabled

section
variable {s s' : State} {t : Nat} {pc : Pc}

/-- A step that is neither in nor into such a place, and leaves the flag and the backend. -/
theorem Passed.quiet (h : Passed s) (hpcs : s'.pcs = Function.update s.pcs t pc) (henabled : s'.enabled = s.enabled)
    (henable : s'.enable = s.enable) (ht : (s.pcs t).crosses = false) (hno : pc.crosses = false) : Passed s' := by
  have hback : ∀ u, (s'.pcs u).crosses = true → s'.pcs u = s.pcs u := by
    intro u hu
    by_cases hut : u = t
    · subst hut
      rw [hpcs, Function.update_self, hno] at hu
      cases hu
    · rw [hpcs, Function.update_of_ne hut]
  refine ⟨?_, ?_, ?_, ?_⟩
  · intro u v hu hv
    exact h.one u v (by rw [← hback u hu]; exact hu) (by rw [← hback v hv]; exact hv)
  · intro u on hu
    rw [henabled]
    exact h.recorded u on (by rw [← hback u (by rw [hu]; rfl)]; exact hu)
  · intro u sw e hu
    rw [henable]
    exact h.replaced u sw e (by rw [← hback u (by rw [hu]; rfl)]; exact hu)
  · intro ha on hon
    rw [henabled]
    rw [henable] at hon
    apply h.passed _ on hon
    intro u
    by_cases hut : u = t
    · subst hut
      exact ht
    · have := ha u
      rwa [hpcs, Function.update_of_ne hut] at this

/-- A step into such a place, taken alone. -/
theorem Passed.begin (ha : Alone s) (hpcs : s'.pcs = Function.update s.pcs t pc) (hpc : pc.crosses = true)
    (hrec : ∀ on, pc = .recorded on → s'.enabled = on)
    (hrep : ∀ switch enabled, pc = .replaced switch enabled → s'.enable = none ∨ s'.enable = some none) : Passed s' := by
  have hself : s'.pcs t = pc := by rw [hpcs, Function.update_self]
  have hone : ∀ u, (s'.pcs u).crosses = true → u = t := by
    intro u hu
    by_contra hut
    rw [hpcs, Function.update_of_ne hut, ha u] at hu
    cases hu
  refine ⟨fun u v hu hv => (hone u hu).trans (hone v hv).symm, ?_, ?_, ?_⟩
  · intro u on hu
    cases hone u (by rw [hu]; rfl)
    exact hrec on (hself.symm.trans hu)
  · intro u sw e hu
    cases hone u (by rw [hu]; rfl)
    exact hrep sw e (hself.symm.trans hu)
  · intro ha'
    have := ha' t
    rw [hself, hpc] at this
    cases this

/-- A step out of such a place. -/
theorem Passed.finish (h : Passed s) (hpcs : s'.pcs = Function.update s.pcs t pc) (ht : (s.pcs t).crosses = true)
    (hno : pc.crosses = false) (hp : ∀ on, s'.enable = some (some on) → on = s'.enabled) : Passed s' := by
  have hnone : ∀ u, ¬ (s'.pcs u).crosses = true := by
    intro u hu
    by_cases hut : u = t
    · subst hut
      rw [hpcs, Function.update_self, hno] at hu
      cases hu
    · rw [hpcs, Function.update_of_ne hut] at hu
      exact hut (h.one u t hu ht)
  exact ⟨fun u _ hu _ => absurd hu (hnone u), fun u on hu => absurd (by rw [hu]; rfl) (hnone u),
    fun u sw e hu => absurd (by rw [hu]; rfl) (hnone u), fun _ => hp⟩

theorem Passed.enter (h : Passed s) {call : Call} (hpc : s.pcs t = .entered call) (hok : changes s t = true → Alone s)
    (hs : s.enter t call = some s') : Passed s' := by
  have ht : (s.pcs t).crosses = false := by rw [hpc]; rfl
  cases call with
  | setGain bits =>
    cases hs
    exact h.quiet rfl rfl rfl ht rfl
  | setMuted muted =>
    cases hs
    refine h.quiet rfl rfl rfl ht ?_
    split <;> rfl
  | offerMute =>
    cases hs
    exact Passed.begin (hok (by simp [changes, hpc])) rfl rfl nofun fun _ _ _ => Or.inl rfl
  | offerEnable enabled =>
    cases hs
    exact Passed.begin (hok (by simp [changes, hpc])) rfl rfl nofun fun _ _ _ => Or.inr rfl
  | withdraw =>
    cases hs
    exact Passed.begin (hok (by simp [changes, hpc])) rfl rfl nofun fun _ _ _ => Or.inl rfl
  | setEnabled on =>
    unfold State.enter at hs
    dsimp only at hs
    split at hs
    · cases hs
      exact h.quiet rfl rfl rfl ht rfl
    · rename_i hc
      cases hs
      refine Passed.begin (hok ?_) rfl rfl ?_ nofun
      · simpa [changes, hpc, not_or] using hc
      · intro on' he
        cases he
        rfl
  | onSound =>
    unfold State.enter at hs
    dsimp only at hs
    split at hs
    · cases hs
    · cases hs
      exact h.quiet rfl rfl rfl ht rfl
  | streamPlaying queue started =>
    unfold State.enter at hs
    dsimp only at hs
    generalize (if started = true then s.streams ++ [queue] else s.streams.filter (· ≠ queue)) = streams at hs
    cases hs
    refine h.quiet rfl rfl rfl ht ?_
    split <;> rfl

theorem Passed.step (h : Passed s) (a : Act) (hok : Apart s a) (hs : step s a = some s') : Passed s' := by
  cases a with
  | call t call =>
    unfold Controls.step at hs
    dsimp only at hs
    split at hs
    · rename_i hi
      cases hs
      exact h.quiet rfl rfl rfl (by rw [hi]; rfl) rfl
    · cases hs
  | go t =>
    change s.go t = some s' at hs
    unfold State.go at hs
    cases hpc : s.pcs t with
    | idle =>
      rw [hpc] at hs
      cases hs
    | entered call =>
      rw [hpc] at hs
      exact h.enter hpc hok hs
    | recorded on =>
      rw [hpc] at hs
      cases hs
      refine h.finish rfl (by rw [hpc]; rfl) rfl ?_
      intro on' he
      obtain ⟨_, -, he'⟩ := Option.map_eq_some_iff.mp he
      cases he'
      exact (h.recorded t on hpc).symm
    | replaced switch enabled =>
      rw [hpc] at hs
      cases hs
      refine h.finish rfl (by rw [hpc]; rfl) rfl ?_
      intro on' he
      have he' : s.enable = some (some on') := he
      rcases h.replaced t switch enabled hpc with hn | hn
      · rw [hn] at he'
        cases he'
      · rw [hn] at he'
        cases he'
    | changed =>
      rw [hpc] at hs
      dsimp only at hs
      split at hs
      · cases hs
      split at hs
      · cases hs
        exact h.quiet rfl rfl rfl (by rw [hpc]; rfl) rfl
      · cases hs
        exact h.quiet rfl rfl rfl (by rw [hpc]; rfl) rfl
    | reading playing =>
      rw [hpc] at hs
      cases hs
      exact h.quiet rfl rfl rfl (by rw [hpc]; rfl) rfl
    | telling sound =>
      rw [hpc] at hs
      cases hs
      exact h.quiet rfl rfl rfl (by rw [hpc]; rfl) rfl

theorem passed_new : Passed new := ⟨nofun, nofun, nofun, nofun⟩

end

/-- Once every call has returned, the listener's last word is the sound, in every order of the
steps; and the backend's is the flag, in every order in which no two changes cross. -/
theorem sound_consistent (acts : List Act) (s : State) (hr : run step new acts = some s) (hq : Quiet s) :
    (∀ sound, s.listener = some (some sound) → sound = s.sound) ∧
      (Meets step Apart new acts → ∀ on, s.enable = some (some on) → on = s.enabled) := by
  have htold : Told s := trace_inv_all (fun _ => Told) told_new (fun _ _ a _ h hs => h.step a hs) hr
  refine ⟨?_, ?_⟩
  · intro sound hl
    rcases htold.told sound hl with he | ⟨t, ht⟩ | ⟨t, ht⟩
    · exact he
    · rw [hq t] at ht
      cases ht
    · rw [hq t] at ht
      cases ht
  · intro hm on hon
    have hpassed : Passed s := trace_inv (fun _ => Passed) passed_new (fun _ _ a _ h hok hs => h.step a hok hs) hm hr
    apply hpassed.passed _ on hon
    intro t
    rw [hq t]
    rfl

/-- A listener and an offer, and then the switch turned off. -/
theorem sound_consistent_off :
    ∃ s, run step new [.call 0 .onSound, .go 0, .call 0 (.offerEnable true), .go 0, .go 0, .go 0, .go 0, .go 0,
        .call 1 (.setEnabled false), .go 1, .go 1, .go 1, .go 1, .go 1] = some s ∧
      s.listener = some (some ⟨some .enable, false, false, false⟩) ∧ s.sound = ⟨some .enable, false, false, false⟩ ∧
      s.enable = some (some false) ∧ s.enabled = false := by
  have hm : Meets step Apart new [.call 0 .onSound, .go 0, .call 0 (.offerEnable true), .go 0, .go 0, .go 0, .go 0, .go 0,
      .call 1 (.setEnabled false), .go 1, .go 1, .go 1, .go 1, .go 1] := by
    refine ⟨trivial, ?_⟩
    rintro _ ⟨⟩
    refine ⟨nofun, ?_⟩
    rintro _ ⟨⟩
    refine ⟨trivial, ?_⟩
    rintro _ ⟨⟩
    refine ⟨fun _ t => ?_, ?_⟩
    · match t with
      | 0 => rfl
      | t + 1 => rfl
    rintro _ ⟨⟩
    refine ⟨nofun, ?_⟩
    rintro _ ⟨⟩
    refine ⟨nofun, ?_⟩
    rintro _ ⟨⟩
    refine ⟨nofun, ?_⟩
    rintro _ ⟨⟩
    refine ⟨nofun, ?_⟩
    rintro _ ⟨⟩
    refine ⟨trivial, ?_⟩
    rintro _ ⟨⟩
    refine ⟨fun _ t => ?_, ?_⟩
    · match t with
      | 0 => rfl
      | 1 => rfl
      | t + 2 => rfl
    rintro _ ⟨⟩
    refine ⟨nofun, ?_⟩
    rintro _ ⟨⟩
    refine ⟨nofun, ?_⟩
    rintro _ ⟨⟩
    refine ⟨nofun, ?_⟩
    rintro _ ⟨⟩
    refine ⟨nofun, ?_⟩
    rintro _ ⟨⟩
    trivial
  generalize hacts : ([.call 0 .onSound, .go 0, .call 0 (.offerEnable true), .go 0, .go 0, .go 0, .go 0, .go 0,
    .call 1 (.setEnabled false), .go 1, .go 1, .go 1, .go 1, .go 1] : List Act) = acts at *
  have hend : (run step new acts).map (fun s => (s.listener, s.enable, s.pcs 0, s.pcs 1)) =
      some (some (some ⟨some .enable, false, false, false⟩), some (some false), .idle, .idle) := by
    rw [← hacts]
    decide +kernel
  obtain ⟨s, hr, hs⟩ := Option.map_eq_some_iff.mp hend
  simp only [Prod.mk.injEq] at hs
  obtain ⟨hl, he, h0, h1⟩ := hs
  obtain ⟨hsound, hpassed⟩ := sound_consistent acts s hr (fun t => by
    match t with
    | 0 => exact h0
    | 1 => exact h1
    | t + 2 => exact idle_of_not_called hr (by rw [← hacts]; simp [Act.thread]))
  exact ⟨s, hr, hl, (hsound _ hl).symm, he, (hpassed hm _ he).symm⟩

/-- The switch turned off and on again by two threads that cross: the flag says on, and the
backend's last word is off. -/
theorem crossing_enables :
    ∃ s, run step new [.call 0 (.offerEnable true), .go 0, .go 0, .go 0, .call 0 (.setEnabled false),
        .call 1 (.setEnabled true), .go 0, .go 1, .go 1, .go 0, .go 0, .go 1] = some s ∧
      Quiet s ∧ s.enable = some (some false) ∧ s.enabled = true := by
  generalize hacts : ([.call 0 (.offerEnable true), .go 0, .go 0, .go 0, .call 0 (.setEnabled false),
    .call 1 (.setEnabled true), .go 0, .go 1, .go 1, .go 0, .go 0, .go 1] : List Act) = acts
  have hend : (run step new acts).map (fun s => (s.enable, s.enabled, s.pcs 0, s.pcs 1)) =
      some (some (some false), true, .idle, .idle) := by
    rw [← hacts]
    decide +kernel
  obtain ⟨s, hr, hs⟩ := Option.map_eq_some_iff.mp hend
  simp only [Prod.mk.injEq] at hs
  obtain ⟨he, hf, h0, h1⟩ := hs
  refine ⟨s, hr, ?_, he, hf⟩
  intro t
  match t with
  | 0 => exact h0
  | 1 => exact h1
  | t + 2 => exact idle_of_not_called hr (by rw [← hacts]; simp [Act.thread])

end Vento.Audio.Controls
