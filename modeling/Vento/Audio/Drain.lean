import Vento.Audio.Latency
/-!
# A queue that nothing more is written to

What pulls alone make of a queue: it plays what it has, waiting for a target's worth
first where it has to, runs dry once and is silent from then on. A device of another rate
needs two frames to start, so a single frame is never played to it, and the queue that
waits for its turn to play it runs dry again every time it starts.
-/

namespace Vento.Audio

open Vento.Lib Duration

namespace Format

theorem duration_mono (f : Format) {n m : Nat} (h : n ≤ m) : f.duration n ≤ f.duration m :=
  Nat.mul_le_mul_right _ (Nat.div_le_div_right (Nat.mul_le_mul_right _ h))

/-- The microseconds of a `u64` are frames of a `usize`. -/
theorem frames_le_usizeMax (f : Format) {us : Nat} (h : us < 2 ^ 64) : f.frames (micros us) ≤ usizeMax := by
  have hus : asMicros (micros us) = us := Nat.mul_div_cancel us (by decide)
  have hrate : us * f.rate ≤ us * 384000 := Nat.mul_le_mul_left _ f.rate_ok.2
  rw [frames, hus, usizeMax]
  omega

theorem two_le_margin (f : Format) : 2 ≤ f.frames Policy.margin := by
  have hm : asMicros Policy.margin = 10000 := by decide
  have hr := f.rate_ok.1
  rw [frames, hm]
  omega

end Format

namespace Queue

/-- A pull of at least a frame. -/
structure Draw where
  frames : Nat
  now : Nat
  pos : 0 < frames

/-- The queue after the first `n` of the pulls. -/
def drain (q : Queue) (device : Format) (draws : Nat → Draw) : Nat → Queue
  | 0 => q
  | n + 1 => ((q.drain device draws n).pull device (draws n).frames (draws n).now).1

/-- The sound in the pull after those. -/
def drained (q : Queue) (device : Format) (draws : Nat → Draw) (n : Nat) : List (List Int) :=
  ((q.drain device draws n).pull device (draws n).frames (draws n).now).2

/-- The clock of the pulls goes forward. -/
def Forward (draws : Nat → Draw) : Prop := ∀ t, ∃ n, ∀ m, n ≤ m → t ≤ (draws m).now

/-- From some pull on the queue waits, every pull is silence and none is an underrun,
with nothing queued if the clock goes forward; and there has been one underrun at most. -/
structure Drains (q : Queue) (device : Format) (draws : Nat → Draw) : Prop where
  quiet : ∃ N, ∀ n, N ≤ n → (q.drain device draws n).primed = false ∧ q.drained device draws n = [] ∧
    (q.drain device draws (n + 1)).stats.underruns = (q.drain device draws n).stats.underruns
  empty : Forward draws → ∃ N, ∀ n, N ≤ n → (q.drain device draws n).samples = []
  once : ∀ n, (q.drain device draws n).stats.underruns ≤ q.stats.underruns + 1

/-- A single frame, and no two to start between. -/
def Stranded (q : Queue) : Prop := q.queued = 1 ∧ ¬(q.primed = true ∧ q.resampler.loaded = true)

section

variable {q : Queue} {device : Format} {frames now : Nat}

theorem two_le_margin (q : Queue) : 2 ≤ q.margin := Nat.le_trans q.format.two_le_margin (Nat.le_add_right _ _)

theorem two_le_startAt (q : Queue) (device : Format) : 2 ≤ q.startAt device := by
  have hm := q.two_le_margin
  unfold startAt
  split
  · unfold target
    omega
  · unfold target
    omega

theorem startAt_le (q : Queue) (device : Format) : q.startAt device ≤ q.target := by
  unfold startAt
  split
  · exact Nat.min_le_left _ _
  · exact Nat.le_refl _

/-- How many frames of silence can come before a queue that waits starts. -/
def patience (q : Queue) (device : Format) : Nat :=
  (device.frames (micros q.buffer) - q.pulled) + (device.frames (q.format.duration q.target) - q.waited)

/-- The queue waits on with what it had, for less long if it has anything and no group
of writes is still landing. -/
structure Waits (q q' : Queue) (device : Format) (now : Nat) : Prop where
  primed : q'.primed = false
  samples : q'.samples = q.samples
  stats : q'.stats = q.stats
  same : SameTarget q q'
  less : 0 < q.queued → q.queued < q.startAt device ∨ q.rhythm.gathering now Policy.gather = false →
    q'.patience device < q.patience device

/-- The queue starts with two frames, or with all that there are. -/
structure Starts (q q' : Queue) : Prop where
  some : 0 < q.queued
  primed : q'.primed = true
  loaded : q'.resampler.loaded = false
  queued : min q.queued 2 ≤ q'.queued ∧ q'.queued ≤ q.queued
  stats : q'.stats.underruns = q.stats.underruns
  same : SameTarget q q'

theorem trimTo_underruns (q : Queue) (keep : Nat) : (q.trimTo keep).stats.underruns = q.stats.underruns := by
  unfold trimTo
  split
  · rfl
  · rfl

theorem prime_starts (h : Ok q) (hq : 0 < q.queued) (now : Nat) : Starts q (q.prime now) := by
  have hm := q.two_le_margin
  have hkeep := queued_trimTo h
    (max (q.target - if q.gathering then q.format.frames (q.rhythm.sinceLast now) else 0) (q.periodFrames + q.margin))
  have hqueued : (q.prime now).queued = min q.queued
      (max (q.target - if q.gathering then q.format.frames (q.rhythm.sinceLast now) else 0) (q.periodFrames + q.margin)) := hkeep
  refine ⟨hq, rfl, rfl, ?_, trimTo_underruns q _, prime_same q now⟩
  rw [hqueued]
  omega

theorem await_cases (h : Ok q) (hp : q.primed = false) (hf : 0 < frames) :
    Waits q (q.await device frames now) device now ∨ Starts q (q.await device frames now) := by
  have hle : device.frames (q.format.duration (q.startAt device)) ≤ device.frames (q.format.duration q.target) :=
    device.frames_mono (q.format.duration_mono (q.startAt_le device))
  unfold await
  dsimp only
  split
  · rename_i hg
    refine .inl ⟨hp, rfl, rfl, ⟨rfl, rfl, rfl, rfl, rfl, rfl⟩, fun _ hn => ?_⟩
    simp only [Bool.and_eq_true, decide_eq_true_eq] at hg
    rcases hn with hn | hn
    · omega
    · rw [hn] at hg
      exact absurd hg.2 Bool.false_ne_true
  · split
    · rename_i hs
      refine .inr (prime_starts h ?_ now)
      have hm := q.two_le_startAt device
      simp only [Bool.or_eq_true, Bool.and_eq_true, decide_eq_true_eq] at hs
      omega
    · rename_i hs
      simp only [Bool.or_eq_true, Bool.and_eq_true, decide_eq_true_eq, not_or, not_and, Nat.not_le] at hs
      split
      · rename_i hq
        refine .inl ⟨hp, rfl, rfl, ⟨rfl, rfl, rfl, rfl, rfl, rfl⟩, fun _ _ => ?_⟩
        have hw := hs.2 hq
        show (device.frames (micros q.buffer) - q.pulled) + (device.frames (q.format.duration q.target) - (q.waited + frames)) <
          (device.frames (micros q.buffer) - q.pulled) + (device.frames (q.format.duration q.target) - q.waited)
        omega
      · rename_i hq
        exact .inl ⟨hp, rfl, rfl, SameTarget.refl q, fun hq' => absurd hq' hq⟩

theorem ready_cases (h : Ok q) (hp : q.primed = false) (hf : 0 < frames) :
    Waits q (q.ready device frames now) device now ∨ Starts q (q.ready device frames now) := by
  have hb := device.frames_le_usizeMax h.buffer
  have hpatience : (q.counted frames).patience device = (device.frames (micros q.buffer) - min (q.pulled + frames) usizeMax) +
      (device.frames (q.format.duration q.target) - q.waited) := rfl
  unfold ready
  by_cases hfill : q.filling device = true
  · rw [hfill, Bool.not_true, Bool.and_false, if_neg Bool.false_ne_true]
    have hlt : q.pulled < device.frames (micros q.buffer) := of_decide_eq_true hfill
    refine .inl ⟨hp, rfl, rfl, counted_same q frames, fun _ _ => ?_⟩
    rw [hpatience, patience]
    omega
  · have hle : device.frames (micros q.buffer) ≤ q.pulled := Nat.not_lt.1 fun hlt => hfill (decide_eq_true hlt)
    rw [eq_false_of_ne_true hfill, hp, Bool.not_false, Bool.and_self, if_pos rfl]
    rcases await_cases (h.counted frames) hp hf with hw | hs
    · refine .inl ⟨hw.primed, hw.samples, hw.stats, (counted_same q frames).trans hw.same, fun hq hg => ?_⟩
      refine Nat.lt_of_lt_of_le (hw.less hq hg) ?_
      rw [hpatience, patience]
      omega
    · exact .inr ⟨hs.some, hs.primed, hs.loaded, hs.queued, hs.stats, (counted_same q frames).trans hs.same⟩

/-- A pull that the queue waits through is silence. -/
theorem pull_waits (hw : Waits q (q.ready device frames now) device now) :
    (q.pull device frames now).2 = [] ∧ Waits q (q.pull device frames now).1 device now := by
  rw [pull, play, hw.primed, if_neg Bool.false_ne_true]
  have hs := hw.same
  exact ⟨rfl, hw.primed, hw.samples, hw.stats, ⟨hs.format, hs.buffer, hs.period, hs.late, hs.start, hs.rhythm⟩, hw.less⟩

/-- There is something to start from, or the resampler has started. -/
def CanStart (q : Queue) (device : Format) : Prop :=
  q.format.rate = device.rate ∨ q.resampler.loaded = true ∨ 2 ≤ q.queued

/-- How far the queue reaches beyond the next frame of the device. -/
def ahead (q : Queue) (device : Format) : Int := Resampler.ahead q.format device q.resampler q.queued

/-- The queue plays on. -/
structure Plays (q q' : Queue) (device : Format) : Prop where
  primed : q'.primed = true
  can : q'.CanStart device
  stats : q'.stats = q.stats
  ahead : q'.ahead device < q.ahead device ∧ -(one + Resampler.stepOf q.format device : Int) ≤ q'.ahead device

/-- The queue has run dry. -/
structure Ends (q q' : Queue) : Prop where
  primed : q'.primed = false
  samples : q'.samples = []
  stats : q'.stats.underruns = q.stats.underruns + 1

theorem samples_eq_nil {m : Nat} {samples : List Int} (h : samples.length = m * q.format.channels) (hm : m = 0) : samples = [] := by
  rw [hm, Nat.zero_mul] at h
  exact List.eq_nil_of_length_eq_zero h

theorem play_cases (h : Ok q) (hp : q.primed = true) (hc : q.CanStart device) (hf : 0 < frames) :
    Plays q (q.play device frames).1 device ∨ Ends q (q.play device frames).1 := by
  rw [play, if_pos hp]
  dsimp only
  generalize hran : q.resampler.run q.samples q.format device frames = ran
  obtain ⟨m', hm', hle, hload, hall, hshort⟩ := Resampler.run_spec hran h.length hc
  unfold took
  split
  · rename_i hlt
    exact .inr ⟨rfl, samples_eq_nil hm' (hshort hlt), rfl⟩
  · rename_i hlt
    have hq : ({ q with resampler := ran.resampler, samples := ran.source } : Queue).queued = m' := queued_of_length hm'
    refine .inl ⟨hp, hload.imp id .inl, rfl, ?_⟩
    rw [ahead, hq]
    exact hall hf (Nat.le_antisymm hle (Nat.not_lt.1 hlt))

theorem ready_primed (hp : q.primed = true) : q.ready device frames now = q.counted frames := by
  rw [ready, hp, Bool.not_true, Bool.false_and, if_neg Bool.false_ne_true]

/-- A pull from a queue that plays. -/
theorem pull_plays (h : Ok q) (hp : q.primed = true) (hc : q.CanStart device) (hf : 0 < frames) :
    Plays q (q.pull device frames now).1 device ∨ Ends q (q.pull device frames now).1 := by
  rw [pull, ready_primed hp]
  rcases play_cases (h.counted frames) hp hc hf with hq | hq
  · exact .inl ⟨hq.primed, hq.can, hq.stats, hq.ahead⟩
  · exact .inr ⟨hq.primed, hq.samples, hq.stats⟩

/-- A pull by which the queue starts. -/
theorem pull_starts (h : Ok q) (hs : Starts q (q.ready device frames now))
    (hc : q.format.rate = device.rate ∨ 2 ≤ q.queued) (hf : 0 < frames) :
    ((q.pull device frames now).1.primed = true ∧ (q.pull device frames now).1.CanStart device ∧
      (q.pull device frames now).1.stats.underruns = q.stats.underruns) ∨ Ends q (q.pull device frames now).1 := by
  have hcan : (q.ready device frames now).CanStart device := by
    rcases hc with hc | hc
    · exact .inl (hs.same.format ▸ hc)
    · refine .inr (.inr ?_)
      have := hs.queued.1
      omega
  rw [pull]
  rcases play_cases (h.ready device frames now) hs.primed hcan hf with hq | hq
  · exact .inl ⟨hq.primed, hq.can, by rw [hq.stats, hs.stats]⟩
  · exact .inr ⟨hq.primed, hq.samples, by rw [hq.stats, hs.stats]⟩

/-- Less than two frames that nothing is loaded for are not played, and the queue has
run dry. -/
theorem play_unloaded (h : Ok q) (hp : q.primed = true) (hr : q.format.rate ≠ device.rate) (hl : q.resampler.loaded = false)
    (hq : q.queued < 2) (hf : 0 < frames) :
    (q.play device frames).1.primed = false ∧ (q.play device frames).1.samples = q.samples ∧
    (q.play device frames).1.stats.underruns = q.stats.underruns + 1 := by
  have hs : q.samples.length < 2 * q.format.channels := by
    rw [h.length]
    exact Nat.mul_lt_mul_of_pos_right hq (Resampler.channels_pos q.format)
  have hlt : (⟨q.resampler, q.samples, []⟩ : Resampler.Ran).filled.length < frames := hf
  rw [play, if_pos hp]
  dsimp only
  rw [Resampler.run_unloaded hr hl hs]
  unfold took
  rw [if_pos hlt]
  exact ⟨rfl, rfl, rfl⟩

/-- A pull from a queue that plays and has too little to start between. -/
theorem pull_unloaded (h : Ok q) (hp : q.primed = true) (hr : q.format.rate ≠ device.rate) (hl : q.resampler.loaded = false)
    (hq : q.queued < 2) (hf : 0 < frames) :
    (q.pull device frames now).1.primed = false ∧ (q.pull device frames now).1.samples = q.samples ∧
    (q.pull device frames now).1.stats.underruns = q.stats.underruns + 1 := by
  rw [pull, ready_primed hp]
  exact play_unloaded (h.counted frames) hp hr hl hq hf

theorem play_underruns (q : Queue) (device : Format) (frames : Nat) :
    q.stats.underruns ≤ (q.play device frames).1.stats.underruns := by
  unfold play
  split
  · unfold took
    dsimp only
    split
    · exact Nat.le_succ _
    · exact Nat.le_refl _
  · exact Nat.le_refl _

theorem pull_underruns (h : Ok q) (hf : 0 < frames) : q.stats.underruns ≤ (q.pull device frames now).1.stats.underruns := by
  refine Nat.le_trans (Nat.le_of_eq ?_) (play_underruns _ device frames)
  cases hp : q.primed with
  | false =>
    rcases ready_cases h hp hf with hw | hs
    · rw [hw.stats]
    · rw [hs.stats]
  | true =>
    rw [ready_primed hp]
    rfl

end

/-! ## Draining -/

section

variable {q : Queue} {device : Format} {draws : Nat → Draw}

theorem drain_same (q : Queue) (device : Format) (draws : Nat → Draw) (n : Nat) : SameTarget q (q.drain device draws n) := by
  induction n with
  | zero => exact SameTarget.refl q
  | succ n ih => exact ih.trans ((ready_same _ device _ _).trans (play_same _ device _))

theorem drain_ok (h : Ok q) (n : Nat) : Ok (q.drain device draws n) := by
  induction n with
  | zero => exact h
  | succ n ih => exact ih.pull device _ _

theorem drain_underruns (h : Ok q) {n m : Nat} (hnm : n ≤ m) :
    (q.drain device draws n).stats.underruns ≤ (q.drain device draws m).stats.underruns := by
  induction hnm with
  | refl => exact Nat.le_refl _
  | step _ ih => exact Nat.le_trans ih (pull_underruns (drain_ok h _) (draws _).pos)

theorem drain_waits (h : Ok q) {n : Nat} (hp : (q.drain device draws n).primed = false) :
    (q.drained device draws n = [] ∧ Waits (q.drain device draws n) (q.drain device draws (n + 1)) device (draws n).now) ∨
    Starts (q.drain device draws n) ((q.drain device draws n).ready device (draws n).frames (draws n).now) := by
  rcases ready_cases (drain_ok h n) hp (draws n).pos with hw | hs
  · exact .inl (pull_waits hw)
  · exact .inr hs

theorem drain_starts (h : Ok q) {n : Nat}
    (hs : Starts (q.drain device draws n) ((q.drain device draws n).ready device (draws n).frames (draws n).now))
    (hc : q.format.rate = device.rate ∨ 2 ≤ (q.drain device draws n).queued) :
    ((q.drain device draws (n + 1)).primed = true ∧ (q.drain device draws (n + 1)).CanStart device ∧
      (q.drain device draws (n + 1)).stats.underruns = (q.drain device draws n).stats.underruns) ∨
    Ends (q.drain device draws n) (q.drain device draws (n + 1)) :=
  pull_starts (drain_ok h n) hs (hc.imp_left fun hr => (drain_same q device draws n).format ▸ hr) (draws n).pos

theorem drain_plays (h : Ok q) {n : Nat} (hp : (q.drain device draws n).primed = true)
    (hc : (q.drain device draws n).CanStart device) :
    Plays (q.drain device draws n) (q.drain device draws (n + 1)) device ∨
    Ends (q.drain device draws n) (q.drain device draws (n + 1)) :=
  pull_plays (drain_ok h n) hp hc (draws n).pos

/-- A queue that waits with nothing queued is silent from then on. -/
theorem quiet_from (h : Ok q) {N : Nat} (hp : (q.drain device draws N).primed = false)
    (hs : (q.drain device draws N).samples = []) {n : Nat} (hn : N ≤ n) :
    (q.drain device draws n).primed = false ∧ (q.drain device draws n).samples = [] ∧
    (q.drain device draws n).stats.underruns = (q.drain device draws N).stats.underruns ∧ q.drained device draws n = [] := by
  have hstep : ∀ n, (q.drain device draws n).primed = false → (q.drain device draws n).samples = [] →
      q.drained device draws n = [] ∧ Waits (q.drain device draws n) (q.drain device draws (n + 1)) device (draws n).now := by
    intro n hp hs
    rcases drain_waits h hp with hw | hst
    · exact hw
    · have := hst.some
      rw [queued, hs] at this
      simp at this
  induction hn with
  | refl => exact ⟨hp, hs, rfl, (hstep N hp hs).1⟩
  | step _ ih =>
    obtain ⟨hp', hs', hu', -⟩ := ih
    obtain ⟨-, hw⟩ := hstep _ hp' hs'
    have hs'' := hw.samples.trans hs'
    refine ⟨hw.primed, hs'', ?_, (hstep _ hw.primed hs'').1⟩
    rw [hw.stats]
    exact hu'

theorem drains_of_quiet (h : Ok q) {N : Nat} (hp : (q.drain device draws N).primed = false)
    (hs : (q.drain device draws N).samples = [])
    (hu : (q.drain device draws N).stats.underruns ≤ q.stats.underruns + 1) : Drains q device draws where
  quiet := by
    refine ⟨N, fun n hn => ?_⟩
    obtain ⟨hp', -, hu', hd⟩ := quiet_from h hp hs hn
    obtain ⟨-, -, hu'', -⟩ := quiet_from h hp hs (Nat.le_succ_of_le hn)
    exact ⟨hp', hd, hu''.trans hu'.symm⟩
  empty := fun _ => ⟨N, fun _ hn => (quiet_from h hp hs hn).2.1⟩
  once := by
    intro n
    rcases Nat.le_total n N with hn | hn
    · exact Nat.le_trans (drain_underruns h hn) hu
    · rw [(quiet_from h hp hs hn).2.2.1]
      exact hu

/-- What ends the one time is drained. -/
theorem drains_of_ends (h : Ok q) {n : Nat} (hu : (q.drain device draws n).stats.underruns = q.stats.underruns)
    (he : Ends (q.drain device draws n) (q.drain device draws (n + 1))) : Drains q device draws := by
  refine drains_of_quiet h he.primed he.samples (Nat.le_of_eq ?_)
  rw [he.stats, hu]

/-- Playing, with what it needs to go on, and not run dry yet. -/
def Playing (q : Queue) (device : Format) (draws : Nat → Draw) (n : Nat) : Prop :=
  (q.drain device draws n).primed = true ∧ (q.drain device draws n).CanStart device ∧
  (q.drain device draws n).stats.underruns = q.stats.underruns

/-- What plays comes to its end. -/
theorem drains_of_playing (h : Ok q) {n : Nat} (hn : Playing q device draws n) : Drains q device draws := by
  have hless : ∀ k, Playing q device draws k → Playing q device draws (k + 1) →
      (q.drain device draws (k + 1)).ahead device < (q.drain device draws k).ahead device ∧
      -(one + Resampler.stepOf q.format device : Int) ≤ (q.drain device draws (k + 1)).ahead device := by
    intro k hk hk'
    rcases drain_plays h hk.1 hk.2.1 with hplays | hends
    · have := hplays.ahead
      rwa [(drain_same q device draws k).format] at this
    · exact nomatch hk'.1.symm.trans hends.primed
  obtain ⟨m, -, hm, hleft⟩ := exists_leaves (fun k => (q.drain device draws k).ahead device) _ hless hn
  rcases drain_plays h hm.1 hm.2.1 with hplays | hends
  · exact absurd ⟨hplays.primed, hplays.can, by rw [hplays.stats, hm.2.2]⟩ hleft
  · exact drains_of_ends h hm.2.2 hends

/-- No group is still landing a while after the last write. -/
theorem gathering_ends (r : Rhythm) (within : Nat) : ∃ t, ∀ now, t ≤ now → r.gathering now within = false := by
  cases hl : r.last with
  | none => exact ⟨0, fun now _ => by simp [Rhythm.gathering, Rhythm.sentWithLast, hl]⟩
  | some last =>
    refine ⟨last + within, fun now hn => ?_⟩
    have : ¬now - last < within := by omega
    simp [Rhythm.gathering, Rhythm.sinceLast, hl, this]

/-- Still waiting with what there was. -/
def Waiting (q : Queue) (device : Format) (draws : Nat → Draw) (n : Nat) : Prop :=
  (q.drain device draws n).primed = false ∧ (q.drain device draws n).samples = q.samples ∧
  (q.drain device draws n).stats.underruns = q.stats.underruns

theorem Waiting.queued {n : Nat} (hn : Waiting q device draws n) : (q.drain device draws n).queued = q.queued := by
  rw [Queue.queued, Queue.queued, hn.2.1, (drain_same q device draws n).format]

theorem Waiting.next {n : Nat} (hn : Waiting q device draws n) {now : Nat}
    (hw : Waits (q.drain device draws n) (q.drain device draws (n + 1)) device now) : Waiting q device draws (n + 1) :=
  ⟨hw.primed, hw.samples.trans hn.2.1, by rw [hw.stats, hn.2.2]⟩

/-- What waits with something that can be played plays, or waits for good. -/
theorem drains_of_waiting (h : Ok q) (hp : q.primed = false) (hc : q.format.rate = device.rate ∨ 2 ≤ q.queued)
    (hq : 0 < q.queued) : Drains q device draws := by
  have hstart : ∀ n, Waiting q device draws n → Waiting q device draws (n + 1) ∨ Drains q device draws := by
    intro n hn
    rcases drain_waits h hn.1 with ⟨-, hw⟩ | hs
    · exact .inl (hn.next hw)
    · rcases drain_starts h hs (by rwa [hn.queued]) with ⟨hp', hc', hu'⟩ | hends
      · exact .inr (drains_of_playing h (n := n + 1) ⟨hp', hc', hu'.trans hn.2.2⟩)
      · exact .inr (drains_of_ends h hn.2.2 hends)
  by_cases hall : ∀ n, Waiting q device draws n
  · have hwaits : ∀ n, q.drained device draws n = [] ∧
        Waits (q.drain device draws n) (q.drain device draws (n + 1)) device (draws n).now := by
      intro n
      rcases drain_waits h (hall n).1 with hw | hs
      · exact hw
      · rcases drain_starts h hs (by rwa [(hall n).queued]) with ⟨hp', -⟩ | hends
        · exact nomatch hp'.symm.trans (hall (n + 1)).1
        · have := hends.stats
          rw [(hall n).2.2, (hall (n + 1)).2.2] at this
          omega
    refine ⟨⟨0, fun n _ => ⟨(hall n).1, (hwaits n).1, (hall (n + 1)).2.2.trans (hall n).2.2.symm⟩⟩, fun hforward => ?_,
      fun n => Nat.le_succ_of_le (Nat.le_of_eq (hall n).2.2)⟩
    -- a clock that goes forward ends the wait for a group, and then the wait for the target
    obtain ⟨t, ht⟩ := gathering_ends q.rhythm Policy.gather
    obtain ⟨K, hK⟩ := hforward t
    have hless : ∀ k, K ≤ k → K ≤ k + 1 → ((q.drain device draws (k + 1)).patience device : Int) <
        (q.drain device draws k).patience device ∧ (0 : Int) ≤ (q.drain device draws (k + 1)).patience device := by
      intro k hk _
      have hg : (q.drain device draws k).rhythm.gathering (draws k).now Policy.gather = false := by
        rw [(drain_same q device draws k).rhythm]
        exact ht _ (hK k hk)
      have := (hwaits k).2.less (by rwa [(hall k).queued]) (.inr hg)
      omega
    obtain ⟨m, hm, -, hleft⟩ := exists_leaves (fun k => ((q.drain device draws k).patience device : Int)) 0 hless (Nat.le_refl K)
    exact absurd (Nat.le_succ_of_le hm) hleft
  · obtain ⟨m, hm, hleft⟩ := exists_leaves_of_not ⟨hp, rfl, rfl⟩ hall
    exact (hstart m hm).resolve_left hleft

theorem drain_queued (q : Queue) (device : Format) (draws : Nat → Draw) {n m : Nat}
    (hs : (q.drain device draws m).samples = (q.drain device draws n).samples) :
    (q.drain device draws m).queued = (q.drain device draws n).queued := by
  rw [queued, queued, hs, (drain_same q device draws m).format, (drain_same q device draws n).format]

theorem stranded_of_waiting {n : Nat} (hp : (q.drain device draws n).primed = false) (hq : (q.drain device draws n).queued = 1) :
    (q.drain device draws n).Stranded :=
  ⟨hq, fun hc => nomatch hc.1.symm.trans hp⟩

/-- A single frame that the queue starts with. -/
theorem starts_stranded (h : Ok q) (hr : q.format.rate ≠ device.rate) {n : Nat} (hq : (q.drain device draws n).queued = 1)
    (hs : Starts (q.drain device draws n) ((q.drain device draws n).ready device (draws n).frames (draws n).now)) :
    (q.drain device draws (n + 1)).Stranded ∧
    (q.drain device draws (n + 1)).stats.underruns = (q.drain device draws n).stats.underruns + 1 := by
  have hone : ((q.drain device draws n).ready device (draws n).frames (draws n).now).queued = 1 := by
    have := hs.queued
    omega
  have hr' : ((q.drain device draws n).ready device (draws n).frames (draws n).now).format.rate ≠ device.rate := by
    rwa [hs.same.format, (drain_same q device draws n).format]
  have hok : Ok ((q.drain device draws n).ready device (draws n).frames (draws n).now) := (drain_ok h n).ready device _ _
  obtain ⟨hp', hs', hu'⟩ := play_unloaded hok hs.primed hr' hs.loaded (by omega) (draws n).pos
  have hformat := (play_same ((q.drain device draws n).ready device (draws n).frames (draws n).now) device (draws n).frames).format
  have hqueued : (((q.drain device draws n).ready device (draws n).frames (draws n).now).play device (draws n).frames).1.queued =
      ((q.drain device draws n).ready device (draws n).frames (draws n).now).queued := by
    rw [queued, queued, hs', hformat]
  exact ⟨stranded_of_waiting hp' (hqueued.trans hone), hu'.trans (by rw [hs.stats])⟩

/-- A stranded frame runs the queue dry again. -/
theorem stranded_again (h : Ok q) (hr : q.format.rate ≠ device.rate) {n : Nat} (hs : (q.drain device draws n).Stranded) :
    ∃ m, (q.drain device draws m).Stranded ∧
    (q.drain device draws m).stats.underruns = (q.drain device draws n).stats.underruns + 1 := by
  obtain ⟨hq, hl⟩ := hs
  have hr' : (q.drain device draws n).format.rate ≠ device.rate := by rwa [(drain_same q device draws n).format]
  cases hp : (q.drain device draws n).primed with
  | true =>
    have hl : (q.drain device draws n).resampler.loaded = false := eq_false_of_ne_true fun hl' => hl ⟨hp, hl'⟩
    obtain ⟨hp', hs', hu'⟩ := pull_unloaded (drain_ok h n) hp hr' hl (by omega) (draws n).pos
    have hs' : (q.drain device draws (n + 1)).samples = (q.drain device draws n).samples := hs'
    exact ⟨n + 1, stranded_of_waiting hp' ((drain_queued q device draws hs').trans hq), hu'⟩
  | false =>
    let P : Nat → Prop := fun k => (q.drain device draws k).primed = false ∧ (q.drain device draws k).queued = 1 ∧
      (q.drain device draws k).stats.underruns = (q.drain device draws n).stats.underruns
    have hless : ∀ k, P k → P (k + 1) → ((q.drain device draws (k + 1)).patience device : Int) <
        (q.drain device draws k).patience device ∧ (0 : Int) ≤ (q.drain device draws (k + 1)).patience device := by
      intro k hk hk'
      rcases drain_waits h hk.1 with ⟨-, hw⟩ | hst
      · have hstart := two_le_startAt (q.drain device draws k) device
        have := hw.less (by rw [hk.2.1]; exact Nat.one_pos) (.inl (by rw [hk.2.1]; exact hstart))
        omega
      · have := (starts_stranded h hr hk.2.1 hst).2
        rw [hk.2.2, hk'.2.2] at this
        omega
    obtain ⟨m, -, hm, hleft⟩ := exists_leaves (P := P) _ 0 hless ⟨hp, hq, rfl⟩
    rcases drain_waits h hm.1 with ⟨-, hw⟩ | hst
    · exact absurd ⟨hw.primed, (drain_queued q device draws hw.samples).trans hm.2.1, by rw [hw.stats, hm.2.2]⟩ hleft
    · obtain ⟨hs', hu'⟩ := starts_stranded h hr hm.2.1 hst
      exact ⟨m + 1, hs', by rw [hu', hm.2.2]⟩

theorem not_drains_of_stranded (h : Ok q) (hr : q.format.rate ≠ device.rate) (hs : q.Stranded) : ¬Drains q device draws := by
  intro hd
  have hs₀ : (q.drain device draws 0).Stranded := hs
  obtain ⟨m, hm, hu⟩ := stranded_again h hr hs₀
  obtain ⟨m', -, hu'⟩ := stranded_again h hr hm
  have := hd.once m'
  have hu₀ : (q.drain device draws 0).stats.underruns = q.stats.underruns := rfl
  omega

theorem drains_of_not_stranded (h : Ok q) (hc : device.rate = q.format.rate ∨ ¬q.Stranded) : Drains q device draws := by
  cases hp : q.primed with
  | true =>
    by_cases hcan : q.CanStart device
    · exact drains_of_playing h (n := 0) ⟨hp, hcan, rfl⟩
    · -- nothing to start between and no single frame either: the queue is empty
      rw [CanStart, not_or, not_or, Bool.not_eq_true, Nat.not_le] at hcan
      obtain ⟨hr, hl, hq⟩ := hcan
      have hns := hc.resolve_left (Ne.symm hr)
      have hq₀ : q.queued = 0 := by
        by_contra hne
        exact hns ⟨by omega, fun hb => nomatch hb.2.symm.trans hl⟩
      obtain ⟨hp', hs', hu'⟩ := pull_unloaded h hp hr hl hq (draws 0).pos
      exact drains_of_ends h (n := 0) rfl ⟨hp', hs'.trans (samples_eq_nil h.length hq₀), hu'⟩
  | false =>
    rcases Nat.eq_zero_or_pos q.queued with hq | hq
    · exact drains_of_quiet h (N := 0) hp (samples_eq_nil h.length hq) (Nat.le_succ _)
    · refine drains_of_waiting h hp (hc.imp Eq.symm fun hs => ?_) hq
      by_contra hlt
      exact hs ⟨by omega, fun hl => nomatch hl.1.symm.trans hp⟩

end

/-- After any calls, pulls alone drain the queue, for a device of any rate, unless the
rate is another and a single frame is left with nothing loaded to play it after. -/
theorem drains_iff_not_stranded (format : Format) (as : List Act) : ∃ q, run step (new format) as = some q ∧
    ∀ (device : Format) (draws : Nat → Draw), Drains q device draws ↔ device.rate = format.rate ∨ ¬q.Stranded := by
  obtain ⟨q, hq, hok, rfl⟩ := run_ok format as
  refine ⟨q, hq, fun device draws => ⟨fun hd => ?_, drains_of_not_stranded hok⟩⟩
  by_contra hn
  rw [not_or, not_not] at hn
  exact not_drains_of_stranded hok (Ne.symm hn.1) hn.2 hd

/-- One frame at 44.1 kHz to a device at 48 kHz that takes ten milliseconds at a time:
the queue runs dry twice in a hundred milliseconds, and the frame is still there. -/
theorem single_frame_runs_dry_again : ∃ q, run step (new ⟨44100, 1, by decide, by decide⟩) [.write [5] 0] = some q ∧
    ¬Drains q ⟨48000, 1, by decide, by decide⟩ fun n => ⟨480, millis (10 * n), by decide⟩ := by
  refine ⟨_, rfl, fun hd => ?_⟩
  have hu := hd.once 10
  revert hu
  decide +kernel

end Queue

end Vento.Audio
