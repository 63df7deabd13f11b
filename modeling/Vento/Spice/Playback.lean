import Vento.Audio.Player
import Vento.Lib.Bytes
/-!
# The guest's sound

`spice/src/playback.rs`: the playback channel's messages in front of a `Player`. The server says what it sends before it sends
it, and each message that is too short is none.

`guest_sound`: over every run of messages and ticks, the streams were given the data that came while the guest played, and play
it at the guest's volume, or not at all while it is muted.
-/

namespace Vento.Spice

open Vento.Lib Vento.Audio

def u16At (body : List UInt8) (i : Nat) : Option Nat :=
  if i + 2 ≤ body.length then some (fromLeBytes ((body.drop i).take 2)) else none

def u32At (body : List UInt8) (i : Nat) : Option Nat :=
  if i + 4 ≤ body.length then some (fromLeBytes ((body.drop i).take 4)) else none

namespace Playback

/-- The messages of the channel. -/
inductive Kind
  | data
  | mode
  | start
  | stop
  | volume
  | mute
deriving DecidableEq, Repr

def Kind.ofType (type : Nat) : Option Kind :=
  if type = 101 then some .data
  else if type = 102 then some .mode
  else if type = 103 then some .start
  else if type = 104 then some .stop
  else if type = 105 then some .volume
  else if type = 106 then some .mute
  else none

def modeRaw : Nat := 1

def modeOpus : Nat := 3

def formatS16 : Nat := 1

def quiet : Nat := Duration.secs 2

/-- The multimedia time, then the mode. -/
def modeOf (body : List UInt8) : Option Nat := u16At body 4

/-- Channels, sample format, rate, multimedia time. A format that is not played is none. -/
def startOf (body : List UInt8) : Option (Option Format) := do
  let channels ← u32At body 0
  let sample ← u16At body 4
  let rate ← u32At body 6
  some ((Format.new rate channels).filter fun _ => sample = formatS16)

/-- A count of channels, then a volume each: the loudest. -/
def loudestOf (body : List UInt8) : Option Nat := do
  let count ← body.head?
  ((List.range count.toNat).filterMap fun i => u16At body (1 + i * 2)).max?

def muteOf (body : List UInt8) : Option Bool := body.head?.map (· ≠ 0)

/-- The multimedia time, then the samples or the packet. -/
def dataOf (body : List UInt8) : Option (List UInt8) := if 4 ≤ body.length then some (body.drop 4) else none

end Playback

structure Playback (F : Type) where
  player : Player F
  mode : Nat
  format : Option Format
  volume : F
  muted : Bool

namespace Playback

variable {F : Type} (one zero : F) (clamp : F → F) (fraction : Nat → F)

def new : Playback F := ⟨Player.new one, modeRaw, none, one, false⟩

def applyGain (p : Playback F) : Playback F :=
  { p with player := p.player.setGain clamp (if p.muted then zero else p.volume) }

def data (body : List UInt8) (a : Player.Answer) (p : Playback F) : Option (Playback F) :=
  match p.format, dataOf body with
  | some format, some bytes =>
    if p.mode = modeRaw then (p.player.pcm clamp format bytes a).map fun player => { p with player }
    else if p.mode = modeOpus then (p.player.packet clamp .opus format [] a).map fun player => { p with player }
    else some p
  | _, _ => some p

/-- `fraction` is of 65535, the full volume. -/
def message (type : Nat) (body : List UInt8) (a : Player.Answer) (p : Playback F) : Option (Playback F) :=
  match Kind.ofType type with
  | some .mode => some { p with mode := (modeOf body).getD p.mode }
  | some .start => some { p with format := (startOf body).getD p.format }
  | some .data => p.data clamp body a
  | some .stop => some { p with format := none }
  | some .volume =>
    match loudestOf body with
    | some loudest => some (applyGain zero clamp { p with volume := fraction loudest })
    | none => some p
  | some .mute =>
    match muteOf body with
    | some muted => some (applyGain zero clamp { p with muted })
    | none => some p
  | none => some p

def tick (a : Player.Answer) (p : Playback F) : Playback F := { p with player := p.player.closeIfQuietAt a.now quiet }

inductive Act
  | message (type : Nat) (body : List UInt8)
  | tick

structure Call where
  act : Act
  answer : Player.Answer

def step (p : Playback F) (c : Call) : Option (Playback F) :=
  match c.act with
  | .message type body => p.message zero clamp fraction type body c.answer
  | .tick => some (p.tick c.answer)

/-! ## What the guest said -/

/-- The last of what the calls say, where they say it. -/
def lastSaid {β : Type} (told : Call → Option β) (b : β) (cs : List Call) : β := cs.foldl (fun b c => (told c).getD b) b

/-- What a message of the kind says. -/
def Call.told {β : Type} (kind : Kind) (f : List UInt8 → Option β) (c : Call) : Option β :=
  match c.act with
  | .message type body => if Kind.ofType type = some kind then f body else none
  | .tick => none

def modeSaid (cs : List Call) : Nat := lastSaid (Call.told .mode modeOf) modeRaw cs

/-- A start's, until a stop. -/
def formatSaid (cs : List Call) : Option Format :=
  lastSaid (fun c => (c.told .start startOf).or (c.told .stop fun _ => some none)) none cs

def volumeSaid (cs : List Call) : F := lastSaid (Call.told .volume fun body => (loudestOf body).map fraction) one cs

def mutedSaid (cs : List Call) : Bool := lastSaid (Call.told .mute muteOf) false cs

/-- What a call brings to a guest's stream. -/
def Call.sound (mode : Nat) (format : Option Format) (c : Call) : Option (Format × Chunk × Nat) := do
  let bytes ← c.told .data dataOf
  let format ← format
  if mode = modeRaw then some (format, .bytes bytes, c.answer.now + c.answer.latency)
  else if mode = modeOpus then c.answer.sound
  else none

/-- The data of a run in its order, each with what was said before it. -/
def sounds (cs : List Call) : List (Format × Chunk × Nat) :=
  (List.range cs.length).filterMap fun i => cs[i]?.bind fun c => c.sound (modeSaid (cs.take i)) (formatSaid (cs.take i))

/-- The gain that the guest asks for. -/
def gainSaid (cs : List Call) : F := if mutedSaid cs then zero else volumeSaid one fraction cs

section Follow

variable {one zero clamp fraction} {cs : List Call} {p : Playback F}

theorem lastSaid_snoc {β : Type} (told : Call → Option β) (b : β) (cs : List Call) (c : Call) :
    lastSaid told b (cs ++ [c]) = (told c).getD (lastSaid told b cs) := by
  rw [lastSaid, List.foldl_append]
  rfl

theorem sounds_snoc (cs : List Call) (c : Call) :
    sounds (cs ++ [c]) = sounds cs ++ (c.sound (modeSaid cs) (formatSaid cs)).toList := by
  have hbefore : (List.range cs.length).filterMap (fun i => (cs ++ [c])[i]?.bind fun d =>
      d.sound (modeSaid ((cs ++ [c]).take i)) (formatSaid ((cs ++ [c]).take i))) = sounds cs := by
    refine List.filterMap_congr fun i hi => ?_
    have hlt := List.mem_range.1 hi
    rw [List.getElem?_append_left hlt, List.take_append_of_le_length (Nat.le_of_lt hlt)]
  rw [sounds, List.length_append, List.length_singleton, List.range_succ, List.filterMap_append, hbefore]
  congr 1
  cases hc : c.sound (modeSaid cs) (formatSaid cs) <;> simp [hc]

/-- The channel is as the guest said, and the player was called for it: `ds` are its calls. -/
structure Follows (one zero : F) (clamp : F → F) (fraction : Nat → F) (cs : List Call) (p : Playback F) : Prop where
  mode : p.mode = modeSaid cs
  format : p.format = formatSaid cs
  volume : p.volume = volumeSaid one fraction cs
  muted : p.muted = mutedSaid cs
  player : ∃ ds : List (Player.Call F), run (Player.step clamp) (Player.new one) ds = some p.player ∧
    ds.filterMap Player.Call.sound = sounds cs ∧
    ((∀ c ∈ cs, c.answer.Grants) → ∀ d ∈ ds, d.answer.Grants) ∧ Player.lastGain one ds = gainSaid one zero fraction cs

theorem follows_new : Follows one zero clamp fraction [] (new one) :=
  ⟨rfl, rfl, rfl, rfl, [], rfl, rfl, fun _ => List.forall_mem_nil _, rfl⟩

namespace Follows

/-- The player can always be called. -/
theorem exists_run (h : Follows one zero clamp fraction cs p) (ds : List (Player.Call F)) :
    ∃ q, run (Player.step clamp) p.player ds = some q := by
  obtain ⟨ds₀, hrun, -⟩ := h.player
  obtain ⟨q, hq, -⟩ := Player.run_kept one clamp (ds₀ ++ ds)
  obtain ⟨u, hu, hq⟩ := run_append_some hq
  cases hrun.symm.trans hu
  exact ⟨q, hq⟩

/-- A call, and those of the player that are made for it. -/
theorem next {p' : Playback F} {c : Call} (h : Follows one zero clamp fraction cs p) (l : List (Player.Call F))
    (hplayer : run (Player.step clamp) p.player l = some p'.player) (hanswer : ∀ d ∈ l, d.answer = c.answer)
    (hsound : l.filterMap Player.Call.sound = (c.sound p.mode p.format).toList)
    (hgain : Player.lastGain (if p.muted then zero else p.volume) l = if p'.muted then zero else p'.volume)
    (hmode : p'.mode = (c.told .mode modeOf).getD p.mode)
    (hformat : p'.format = ((c.told .start startOf).or (c.told .stop fun _ => some none)).getD p.format)
    (hvolume : p'.volume = (c.told .volume fun body => (loudestOf body).map fraction).getD p.volume)
    (hmuted : p'.muted = (c.told .mute muteOf).getD p.muted) : Follows one zero clamp fraction (cs ++ [c]) p' := by
  obtain ⟨ds, hrun, hsounds, hgrants, hlast⟩ := h.player
  have hv : p'.volume = volumeSaid one fraction (cs ++ [c]) := by rw [volumeSaid, lastSaid_snoc, hvolume, h.volume, volumeSaid]
  have hm : p'.muted = mutedSaid (cs ++ [c]) := by rw [mutedSaid, lastSaid_snoc, hmuted, h.muted, mutedSaid]
  refine ⟨?_, ?_, hv, hm, ds ++ l, ?_, ?_, fun hg d hd => ?_, ?_⟩
  · rw [modeSaid, lastSaid_snoc, hmode, h.mode, modeSaid]
  · rw [formatSaid, lastSaid_snoc, hformat, h.format, formatSaid]
  · rw [run_append, hrun]
    exact hplayer
  · rw [List.filterMap_append, hsounds, hsound, sounds_snoc, h.mode, h.format]
  · rcases List.mem_append.1 hd with hd | hd
    · exact hgrants (fun c' hc' => hg c' (List.mem_append_left _ hc')) d hd
    · rw [hanswer d hd]
      exact hg c (List.mem_append_right _ (List.mem_singleton_self c))
  · rw [gainSaid, ← h.volume, ← h.muted] at hlast
    rw [Player.lastGain, List.foldl_append]
    rw [Player.lastGain] at hlast
    rw [hlast, gainSaid, ← hv, ← hm]
    exact hgain

theorem told_message {β : Type} {type : Nat} {k : Kind} (hk : Kind.ofType type = some k) (k' : Kind) (f : List UInt8 → Option β)
    (body : List UInt8) (a : Player.Answer) : Call.told k' f ⟨.message type body, a⟩ = if k = k' then f body else none := by
  simp [Call.told, hk]

theorem data {type : Nat} (body : List UInt8) (h : Follows one zero clamp fraction cs p) (hk : Kind.ofType type = some .data)
    (a : Player.Answer) : ∃ p', p.data clamp body a = some p' ∧
      Follows one zero clamp fraction (cs ++ [⟨.message type body, a⟩]) p' := by
  have htold := fun {β : Type} (k' : Kind) (f : List UInt8 → Option β) => told_message hk k' f body a
  have hidle : (Call.mk (.message type body) a).sound p.mode p.format = none →
      Follows one zero clamp fraction (cs ++ [⟨.message type body, a⟩]) p := by
    intro hsound
    refine h.next [] rfl (by simp) (by rw [hsound]; rfl) rfl ?_ ?_ ?_ ?_
    all_goals simp [htold]
  have hcalls : ∀ act : Player.Act F, (Player.Call.mk act a).sound = (Call.mk (.message type body) a).sound p.mode p.format →
      (∀ g : F, Player.lastGain g [⟨act, a⟩] = g) →
      ∃ q, p.player.step clamp ⟨act, a⟩ = some q ∧
        Follows one zero clamp fraction (cs ++ [⟨.message type body, a⟩]) { p with player := q } := by
    intro act hsound hgain
    obtain ⟨q, hq⟩ := h.exists_run [⟨act, a⟩]
    have hstep : p.player.step clamp ⟨act, a⟩ = some q := by simpa [run_cons] using hq
    refine ⟨q, hstep, h.next [⟨act, a⟩] hq (by simp) ?_ (hgain _) ?_ ?_ ?_ ?_⟩
    · rw [← hsound]
      cases hs : (Player.Call.mk act a).sound <;> simp [hs]
    all_goals simp [htold]
  unfold Playback.data
  split
  · next format bytes hf hd =>
    have hsound : (Call.mk (.message type body) a).sound p.mode p.format =
        if p.mode = modeRaw then some (format, .bytes bytes, a.now + a.latency)
        else if p.mode = modeOpus then a.sound else none := by
      simp [Call.sound, htold, hd, hf]
    split
    · next hraw =>
      obtain ⟨q, hq, hfollows⟩ := hcalls (.pcm format bytes) (by rw [hsound, if_pos hraw]; rfl) fun _ => rfl
      exact ⟨_, by rw [show p.player.pcm clamp format bytes a = some q from hq]; rfl, hfollows⟩
    · next hraw =>
      split
      · next hopus =>
        obtain ⟨q, hq, hfollows⟩ := hcalls (.packet .opus format []) (by rw [hsound, if_neg hraw, if_pos hopus]; rfl) fun _ => rfl
        exact ⟨_, by rw [show p.player.packet clamp .opus format [] a = some q from hq]; rfl, hfollows⟩
      · next hopus => exact ⟨p, rfl, hidle (by rw [hsound, if_neg hraw, if_neg hopus])⟩
  · next hno =>
    refine ⟨p, rfl, hidle ?_⟩
    cases hf : p.format with
    | none => simp [Call.sound]
    | some format =>
      cases hd : dataOf body with
      | none => simp [Call.sound, htold, hd]
      | some bytes => exact absurd hd (hno format bytes hf)

theorem step (h : Follows one zero clamp fraction cs p) (c : Call) :
    ∃ p', p.step zero clamp fraction c = some p' ∧ Follows one zero clamp fraction (cs ++ [c]) p' := by
  obtain ⟨act, a⟩ := c
  cases act with
  | tick =>
    refine ⟨_, rfl, h.next [⟨.closeIfQuiet quiet, a⟩] rfl ?_ rfl rfl rfl rfl rfl rfl⟩
    simp
  | message type body =>
    cases hk : Kind.ofType type with
    | none =>
      have htold : ∀ {β : Type} (k : Kind) (f : List UInt8 → Option β), Call.told k f ⟨.message type body, a⟩ = none := by
        intro β k f
        simp [Call.told, hk]
      refine ⟨p, by simp [Playback.step, message, hk], h.next [] rfl (by simp) ?_ rfl ?_ ?_ ?_ ?_⟩
      all_goals simp [Call.sound, htold]
    | some kind =>
      have htold := fun {β : Type} (k' : Kind) (f : List UInt8 → Option β) => told_message hk k' f body a
      have hstep : ∀ o, p.message zero clamp fraction type body a = o → p.step zero clamp fraction ⟨.message type body, a⟩ = o :=
        fun _ ho => ho
      unfold message at hstep
      rw [hk] at hstep
      cases kind with
      | mode =>
        refine ⟨_, hstep _ rfl, h.next [] rfl (by simp) ?_ rfl ?_ ?_ ?_ ?_⟩
        all_goals simp [Call.sound, htold]
      | start =>
        refine ⟨_, hstep _ rfl, h.next [] rfl (by simp) ?_ rfl ?_ ?_ ?_ ?_⟩
        all_goals simp [Call.sound, htold]
      | stop =>
        refine ⟨_, hstep _ rfl, h.next [] rfl (by simp) ?_ rfl ?_ ?_ ?_ ?_⟩
        all_goals simp [Call.sound, htold]
      | volume =>
        cases hl : loudestOf body with
        | none =>
          refine ⟨p, hstep _ (by rw [hl]), h.next [] rfl (by simp) ?_ rfl ?_ ?_ ?_ ?_⟩
          all_goals simp [Call.sound, htold, hl]
        | some loudest =>
          refine ⟨_, hstep _ (by rw [hl]), h.next [⟨.setGain (if p.muted then zero else fraction loudest), a⟩] rfl ?_ ?_ rfl ?_ ?_ ?_ ?_⟩
          all_goals simp [Call.sound, htold, hl, Player.Call.sound, applyGain]
      | mute =>
        cases hm : muteOf body with
        | none =>
          refine ⟨p, hstep _ (by rw [hm]), h.next [] rfl (by simp) ?_ rfl ?_ ?_ ?_ ?_⟩
          all_goals simp [Call.sound, htold, hm]
        | some muted =>
          refine ⟨_, hstep _ (by rw [hm]), h.next [⟨.setGain (if muted then zero else p.volume), a⟩] rfl ?_ ?_ rfl ?_ ?_ ?_ ?_⟩
          all_goals simp [Call.sound, htold, hm, Player.Call.sound, applyGain]
      | data =>
        obtain ⟨p', hp', hfollows⟩ := h.data body hk a
        exact ⟨p', hstep _ hp', hfollows⟩

end Follows

/-- Whatever the server sends and the platform answers: nothing panics, the streams were given data that came after a start and
before a stop, in the mode said, in its order, all of it where the platform refuses nothing; and the open one plays at the volume
that the guest said last, or at none while it has muted itself, whenever it was opened. -/
theorem guest_sound (cs : List Call) : ∃ p, run (step zero clamp fraction) (new one) cs = some p ∧
    p.player.played.Sublist (sounds cs) ∧ ((∀ c ∈ cs, c.answer.Grants) → p.player.played = sounds cs) ∧
    ∀ o, p.player.stream = some o → o.gain = clamp (gainSaid one zero fraction cs) := by
  obtain ⟨p, hp, h⟩ : ∃ p, run (step zero clamp fraction) (new one) cs = some p ∧ Follows one zero clamp fraction cs p := by
    induction cs using List.reverseRecOn with
    | nil => exact ⟨_, rfl, follows_new⟩
    | append_singleton cs c ih =>
      obtain ⟨p, hp, h⟩ := ih
      obtain ⟨p', hp', h'⟩ := h.step c
      exact ⟨p', run_snoc hp hp', h'⟩
  obtain ⟨ds, hrun, hsounds, hgrants, hlast⟩ := h.player
  obtain ⟨q, hq, hkept, -, hsome, hevery⟩ := Player.run_kept one clamp ds
  cases hrun.symm.trans hq
  rw [hsounds] at hsome hevery
  rw [hlast] at hkept
  exact ⟨p, hp, hsome, fun hg => (hevery (hgrants hg)).2, hkept.level⟩

end Follow

end Playback

end Vento.Spice
