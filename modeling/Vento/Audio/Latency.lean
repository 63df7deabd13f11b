import Vento.Audio.Queue
/-!
# How far behind the sound can be

What holds of a queue between calls, and from it the bound on what is queued: after a
write never more than the limit, which is the device's share of it or twice the target,
and the target is never more than the device's period, the most of a rhythm and the most
of the margins.
-/

namespace Vento.Audio

open Vento.Lib Duration

namespace Queue

/-- What the target and the limit are worked out from is the same. -/
structure SameTarget (q q' : Queue) : Prop where
  format : q'.format = q.format
  buffer : q'.buffer = q.buffer
  period : q'.period = q.period
  late : q'.late = q.late
  start : q'.start = q.start
  rhythm : q'.rhythm = q.rhythm

namespace SameTarget

variable {q q' q'' : Queue}

theorem refl (q : Queue) : SameTarget q q := ⟨rfl, rfl, rfl, rfl, rfl, rfl⟩

theorem trans (h : SameTarget q q') (h' : SameTarget q' q'') : SameTarget q q'' :=
  ⟨h'.format.trans h.format, h'.buffer.trans h.buffer, h'.period.trans h.period, h'.late.trans h.late,
    h'.start.trans h.start, h'.rhythm.trans h.rhythm⟩

theorem margin (h : SameTarget q q') : q'.margin = q.margin := by
  simp only [Queue.margin, h.format, h.late, h.start, h.rhythm]

theorem periodFrames (h : SameTarget q q') : q'.periodFrames = q.periodFrames := by
  simp only [Queue.periodFrames, h.format, h.period]

theorem target (h : SameTarget q q') : q'.target = q.target := by
  rw [Queue.target, Queue.target, h.periodFrames, h.margin, h.rhythm]

theorem limit (h : SameTarget q q') : q'.limit = q.limit := by
  rw [Queue.limit, Queue.limit, h.target, h.format, h.buffer]

end SameTarget

/-- What holds of every queue between calls. -/
structure Ok (q : Queue) : Prop where
  whole : ∃ m, q.samples.length = m * q.format.channels
  rhythm : q.rhythm.format = q.format
  late : q.late ≤ asMicros Policy.marginMax
  start : q.start ≤ Policy.marginStart - Policy.margin
  buffer : q.buffer < 2 ^ 64

namespace Ok

variable {q q' : Queue}

/-- The frames of a queue are as many as its samples. -/
theorem length (h : Ok q) : q.samples.length = q.queued * q.format.channels := by
  obtain ⟨m, hm⟩ := h.whole
  rw [queued, hm, Nat.mul_div_cancel _ (Resampler.channels_pos q.format)]

theorem same (h : Ok q) (hs : SameTarget q q') (hw : ∃ m, q'.samples.length = m * q.format.channels) : Ok q' where
  whole := by rw [hs.format]; exact hw
  rhythm := by rw [hs.rhythm, hs.format]; exact h.rhythm
  late := by rw [hs.late]; exact h.late
  start := by rw [hs.start]; exact h.start
  buffer := by rw [hs.buffer]; exact h.buffer

theorem new (format : Format) : Ok (Queue.new format) where
  whole := ⟨0, (Nat.zero_mul _).symm⟩
  rhythm := rfl
  late := Nat.zero_le _
  start := Nat.le_refl _
  buffer := Nat.two_pow_pos 64

end Ok

/-! ## Dropping -/

section

variable {q : Queue}

theorem skip_same (q : Queue) (n : Nat) : SameTarget q (q.skip n) := ⟨rfl, rfl, rfl, rfl, rfl, rfl⟩

theorem newWindow_same (q : Queue) : SameTarget q q.newWindow := ⟨rfl, rfl, rfl, rfl, rfl, rfl⟩

theorem length_skip (h : Ok q) (n : Nat) : (q.skip n).samples.length = (q.queued - n) * q.format.channels := by
  simp only [skip, List.length_mapIdx, List.length_drop, h.length]
  rw [← Nat.sub_mul]
  congr 1
  omega

theorem queued_of_length {m : Nat} (h : q.samples.length = m * q.format.channels) : q.queued = m := by
  rw [queued, h, Nat.mul_div_cancel _ (Resampler.channels_pos q.format)]

theorem queued_skip (h : Ok q) (n : Nat) : (q.skip n).queued = q.queued - n :=
  queued_of_length (length_skip h n)

theorem Ok.skip (h : Ok q) (n : Nat) : Ok (q.skip n) := h.same (skip_same q n) ⟨_, length_skip h n⟩

theorem Ok.newWindow (h : Ok q) : Ok q.newWindow := h.same (newWindow_same q) h.whole

theorem trimTo_same (q : Queue) (keep : Nat) : SameTarget q (q.trimTo keep) := by
  unfold trimTo
  split
  · exact (skip_same q _).trans (newWindow_same _)
  · exact newWindow_same q

theorem Ok.trimTo (h : Ok q) (keep : Nat) : Ok (q.trimTo keep) := by
  unfold Queue.trimTo
  split
  · exact (h.skip _).newWindow
  · exact h.newWindow

theorem queued_trimTo (h : Ok q) (keep : Nat) : (q.trimTo keep).queued = min q.queued keep := by
  unfold trimTo
  split
  · have hq : (q.skip (q.queued - keep)).newWindow.queued = q.queued - (q.queued - keep) := queued_skip h _
    omega
  · have hq : q.newWindow.queued = q.queued := rfl
    omega

theorem settle_same (q : Queue) : SameTarget q q.settle := by
  unfold settle
  dsimp only
  split
  · exact (skip_same q _).trans (newWindow_same _)
  · exact newWindow_same q

theorem Ok.settle (h : Ok q) : Ok q.settle := by
  unfold Queue.settle
  dsimp only
  split
  · exact (h.skip _).newWindow
  · exact h.newWindow

/-! ## Writing -/

theorem Controls.ranDry_le (late seen : Nat) : Controls.ranDry late seen ≤ asMicros Policy.marginMax := Nat.min_le_right _ _

/-- When a write arrived changes what is measured of the far end, and nothing else. -/
theorem arrived_eq (q : Queue) (frames t : Nat) : ∃ dry clean fresh rhythm late catching resume,
    q.arrived frames t = { q with dry, clean, fresh, rhythm, late, catching, resume } ∧
    rhythm.format = q.rhythm.format ∧ (late = q.late ∨ late ≤ asMicros Policy.marginMax) := by
  unfold arrived
  generalize q.catchUp frames t = c
  obtain ⟨burst, catching⟩ := c
  dsimp only
  split
  · split
    · generalize hr : q.rhythm.lateBy t = l
      obtain ⟨rhythm, behind⟩ := l
      have hf : rhythm.format = q.rhythm.format := by
        rw [← Rhythm.lateBy_format q.rhythm t, hr]
      dsimp only
      split
      · refine ⟨_, _, _, _, _, _, _, rfl, ?_, .inl rfl⟩
        rw [Rhythm.wrote_format, Rhythm.restart_format, hf]
      · refine ⟨_, _, _, _, _, _, _, rfl, ?_, .inr (Controls.ranDry_le _ _)⟩
        rw [Rhythm.wrote_format, hf]
    · refine ⟨_, _, _, _, _, _, _, rfl, ?_, .inl rfl⟩
      rw [Rhythm.wrote_format, Rhythm.restart_format]
  · exact ⟨_, _, _, _, _, _, _, rfl, Rhythm.wrote_format _ _ _ _, .inl rfl⟩

theorem Ok.arrived (h : Ok q) (frames t : Nat) : Ok (q.arrived frames t) := by
  obtain ⟨dry, clean, fresh, rhythm, late, catching, resume, he, hf, hl⟩ := arrived_eq q frames t
  rw [he]
  refine ⟨h.whole, hf.trans h.rhythm, ?_, h.start, h.buffer⟩
  rcases hl with hl | hl
  · rw [hl]
    exact h.late
  · exact hl

/-- What `playing` has measured before it settles. -/
theorem eased_eq (q : Queue) (before frames t : Nat) : ∃ since low clean fresh start late,
    ((q.noteClean before frames t).easeStart).easeLate = { q with since, low, clean, fresh, start, late } ∧
    start ≤ q.start ∧ late ≤ q.late := by
  unfold easeLate
  split
  · unfold easeStart
    split
    · exact ⟨_, _, _, _, _, _, rfl, Nat.sub_le _ _, Nat.sub_le _ _⟩
    · exact ⟨_, _, _, _, _, _, rfl, Nat.le_refl _, Nat.sub_le _ _⟩
  · unfold easeStart
    split
    · exact ⟨_, _, _, _, _, _, rfl, Nat.sub_le _ _, Nat.le_refl _⟩
    · exact ⟨_, _, _, _, _, _, rfl, Nat.le_refl _, Nat.le_refl _⟩

theorem Ok.playing (h : Ok q) (before frames t : Nat) : Ok (q.playing before frames t) := by
  obtain ⟨since, low, clean, fresh, start, late, he, hs, hl⟩ := eased_eq q before frames t
  have hok : Ok { q with since, low, clean, fresh, start, late } :=
    ⟨h.whole, h.rhythm, Nat.le_trans hl h.late, Nat.le_trans hs h.start, h.buffer⟩
  unfold Queue.playing
  rw [he]
  dsimp only
  split
  · split
    · exact hok.settle
    · exact hok
  · exact h

theorem Ok.withinLimit (h : Ok q) : Ok q.withinLimit := by
  unfold Queue.withinLimit
  split
  · exact h.trimTo _
  · exact h

theorem withinLimit_same (q : Queue) : SameTarget q q.withinLimit := by
  unfold withinLimit
  split
  · exact trimTo_same q _
  · exact SameTarget.refl q

/-- No more than the limit is left. -/
theorem queued_withinLimit (h : Ok q) : q.withinLimit.queued ≤ q.withinLimit.limit := by
  rw [(withinLimit_same q).limit]
  unfold withinLimit
  split
  · have hle : q.target ≤ q.limit := Nat.le_trans (Nat.le_mul_of_pos_right _ Nat.two_pos) (Nat.le_max_right _ _)
    rw [trim, queued_trimTo h]
    exact Nat.le_trans (Nat.min_le_right _ _) hle
  · rename_i hle
    rw [h.length] at hle
    exact Nat.le_of_mul_le_mul_right (Nat.not_lt.1 hle) (Resampler.channels_pos q.format)

/-- A write's frames on top of the queue's, before anything is made of when it
arrived. -/
def received (q : Queue) (samples : List Int) : Queue :=
  { q with
    samples := q.samples ++ samples.take (samples.length / q.format.channels * q.format.channels)
    waited := 0
    stats := { q.stats with written := q.stats.written + samples.length / q.format.channels } }

theorem write_eq (q : Queue) (samples : List Int) (t : Nat) : q.write samples t =
    (((q.received samples).arrived (samples.length / q.format.channels) t).playing q.samples.length
      (samples.length / q.format.channels) t).withinLimit := by
  rw [write, wrote, Nat.mul_div_cancel _ (Resampler.channels_pos q.format)]
  rfl

theorem Ok.received (h : Ok q) (samples : List Int) : Ok (q.received samples) := by
  refine ⟨⟨q.queued + samples.length / q.format.channels, ?_⟩, h.rhythm, h.late, h.start, h.buffer⟩
  have hle : samples.length / q.format.channels * q.format.channels ≤ samples.length := Nat.div_mul_le_self _ _
  simp only [Queue.received, List.length_append, List.length_take, h.length, Nat.add_mul]
  omega

theorem Ok.measured (h : Ok q) (samples : List Int) (t : Nat) :
    Ok (((q.received samples).arrived (samples.length / q.format.channels) t).playing q.samples.length
      (samples.length / q.format.channels) t) :=
  ((h.received samples).arrived _ t).playing _ _ t

theorem Ok.write (h : Ok q) (samples : List Int) (t : Nat) : Ok (q.write samples t) := by
  rw [write_eq]
  exact (h.measured samples t).withinLimit

theorem queued_write (h : Ok q) (samples : List Int) (t : Nat) : (q.write samples t).queued ≤ (q.write samples t).limit := by
  rw [write_eq]
  exact queued_withinLimit (h.measured samples t)

/-! ## Reading -/

theorem prime_same (q : Queue) (now : Nat) : SameTarget q (q.prime now) := by
  have h := trimTo_same q (max (q.target - if q.gathering then q.format.frames (q.rhythm.sinceLast now) else 0)
    (q.periodFrames + q.margin))
  exact ⟨h.format, h.buffer, h.period, h.late, h.start, h.rhythm⟩

theorem Ok.prime (h : Ok q) (now : Nat) : Ok (q.prime now) := by
  refine h.same (prime_same q now) ?_
  have hq := h.trimTo (max (q.target - if q.gathering then q.format.frames (q.rhythm.sinceLast now) else 0)
    (q.periodFrames + q.margin))
  obtain ⟨m, hm⟩ := hq.whole
  refine ⟨m, ?_⟩
  rw [(trimTo_same q _).format] at hm
  exact hm

theorem await_same (q : Queue) (device : Format) (frames now : Nat) : SameTarget q (q.await device frames now) := by
  unfold await
  dsimp only
  split
  · exact ⟨rfl, rfl, rfl, rfl, rfl, rfl⟩
  · split
    · exact prime_same q now
    · split
      · exact ⟨rfl, rfl, rfl, rfl, rfl, rfl⟩
      · exact SameTarget.refl q

theorem Ok.await (h : Ok q) (device : Format) (frames now : Nat) : Ok (q.await device frames now) := by
  refine h.same (await_same q device frames now) ?_
  unfold Queue.await
  dsimp only
  split
  · exact h.whole
  · split
    · have hp := (h.prime now).whole
      rw [(prime_same q now).format] at hp
      exact hp
    · split
      · exact h.whole
      · exact h.whole

theorem counted_same (q : Queue) (frames : Nat) : SameTarget q (q.counted frames) := ⟨rfl, rfl, rfl, rfl, rfl, rfl⟩

theorem Ok.counted (h : Ok q) (frames : Nat) : Ok (q.counted frames) := h.same (counted_same q frames) h.whole

theorem ready_same (q : Queue) (device : Format) (frames now : Nat) : SameTarget q (q.ready device frames now) := by
  unfold ready
  split
  · exact (counted_same q frames).trans (await_same _ device frames now)
  · exact counted_same q frames

theorem Ok.ready (h : Ok q) (device : Format) (frames now : Nat) : Ok (q.ready device frames now) := by
  unfold Queue.ready
  split
  · exact (h.counted frames).await device frames now
  · exact h.counted frames

theorem play_same (q : Queue) (device : Format) (frames : Nat) : SameTarget q (q.play device frames).1 := by
  unfold play
  split
  · unfold took
    dsimp only
    split
    · exact ⟨rfl, rfl, rfl, rfl, rfl, rfl⟩
    · exact ⟨rfl, rfl, rfl, rfl, rfl, rfl⟩
  · exact ⟨rfl, rfl, rfl, rfl, rfl, rfl⟩

theorem Ok.play (h : Ok q) (device : Format) (frames : Nat) : Ok (q.play device frames).1 := by
  refine h.same (play_same q device frames) ?_
  unfold Queue.play
  split
  · dsimp only
    generalize hran : q.resampler.run q.samples q.format device frames = ran
    have hw := Resampler.run_whole hran h.length
    unfold took
    split
    · exact hw
    · exact hw
  · exact h.whole

theorem Ok.pull (h : Ok q) (device : Format) (frames now : Nat) : Ok (q.pull device frames now).1 :=
  (h.ready device frames now).play device frames

/-! ## Every call -/

theorem Ok.step (h : Ok q) {a : Act} {q' : Queue} (hs : q.step a = some q') : Ok q' := by
  cases a with
  | write samples t =>
    cases hs
    exact h.write samples t
  | pull device frames now =>
    cases hs
    exact h.pull device frames now
  | setDevice buffer period =>
    cases hs
    exact ⟨h.whole, h.rhythm, h.late, h.start, Nat.lt_of_le_of_lt (Nat.min_le_right _ _) (Nat.sub_lt (Nat.two_pow_pos 64) Nat.one_pos)⟩
  | ranDry seen =>
    cases hs
    exact ⟨h.whole, h.rhythm, Controls.ranDry_le _ _, h.start, h.buffer⟩
  | clean =>
    cases hs
    exact ⟨h.whole, h.rhythm, Nat.le_trans (Nat.sub_le _ _) h.late, h.start, h.buffer⟩

theorem playing_format (q : Queue) (before frames t : Nat) : (q.playing before frames t).format = q.format := by
  obtain ⟨since, low, clean, fresh, start, late, he, -⟩ := eased_eq q before frames t
  unfold playing
  rw [he]
  dsimp only
  split
  · split
    · exact (settle_same _).format
    · rfl
  · rfl

theorem write_format (q : Queue) (samples : List Int) (t : Nat) : (q.write samples t).format = q.format := by
  rw [write_eq, (withinLimit_same _).format, playing_format]
  obtain ⟨_, _, _, _, _, _, _, he, -⟩ := arrived_eq (q.received samples) (samples.length / q.format.channels) t
  rw [he]
  rfl

theorem pull_format (q : Queue) (device : Format) (frames now : Nat) : (q.pull device frames now).1.format = q.format :=
  ((ready_same q device frames now).trans (play_same _ device frames)).format

theorem step_format {a : Act} {q' : Queue} (hs : q.step a = some q') : q'.format = q.format := by
  cases a with
  | write samples t =>
    cases hs
    exact write_format q samples t
  | pull device frames now =>
    cases hs
    exact pull_format q device frames now
  | setDevice _ _ | ranDry _ | clean =>
    cases hs
    rfl

/-- Every run of calls goes through, and leaves a queue that is well. -/
theorem run_ok (format : Format) (as : List Act) : ∃ q, run step (new format) as = some q ∧ Ok q ∧ q.format = format := by
  have hsome : ∀ (as : List Act) (q : Queue), ∃ q', run step q as = some q' := by
    intro as
    induction as with
    | nil => exact fun q => ⟨q, rfl⟩
    | cons a as ih =>
      intro q
      obtain ⟨q₁, hq₁⟩ : ∃ q₁, step q a = some q₁ := by cases a <;> exact ⟨_, rfl⟩
      obtain ⟨q', hq'⟩ := ih q₁
      exact ⟨q', by rw [run_cons, hq₁]; exact hq'⟩
  obtain ⟨q, hq⟩ := hsome as (new format)
  have h := trace_inv_all (fun _ q => Ok q ∧ q.format = format) ⟨Ok.new format, rfl⟩
    (fun _ _ _ _ h hs => ⟨h.1.step hs, (step_format hs).trans h.2⟩) hq
  exact ⟨q, hq, h⟩

theorem target_le (h : Ok q) : q.target ≤ q.periodFrames + q.format.frames Rhythm.most + q.format.frames Policy.margin +
    max (q.format.frames Policy.marginMax) (q.format.frames (Policy.marginStart - Policy.margin)) := by
  have hhold : q.rhythm.hold ≤ q.format.frames Rhythm.most := by
    rw [← h.rhythm]
    exact Nat.min_le_right _ _
  have hlate : q.format.frames (micros q.late) ≤ q.format.frames Policy.marginMax := by
    have hmax : micros (asMicros Policy.marginMax) = Policy.marginMax := by decide
    apply q.format.frames_mono
    rw [← hmax]
    exact Nat.mul_le_mul_right 1000 h.late
  have hstart : q.format.frames q.start ≤ q.format.frames (Policy.marginStart - Policy.margin) := q.format.frames_mono h.start
  simp only [target, margin]
  omega

/-- After a write no more is queued than the device's share of the limit or twice the
target, and the target is at no time more than its parts can be. -/
theorem latency_bounded (format : Format) (as : List Act) : ∃ q, run step (new format) as = some q ∧
    q.target ≤ q.periodFrames + format.frames Rhythm.most + format.frames Policy.margin +
      max (format.frames Policy.marginMax) (format.frames (Policy.marginStart - Policy.margin)) ∧
    ∀ samples t, ∃ q', run step (new format) (as ++ [.write samples t]) = some q' ∧
      q'.queued ≤ max (format.frames (Policy.limit - micros q'.buffer)) (2 * q'.target) := by
  obtain ⟨q, hq, hok, hf⟩ := run_ok format as
  have ht := target_le hok
  rw [hf] at ht
  refine ⟨q, hq, ht, fun samples t => ⟨q.write samples t, run_snoc hq rfl, ?_⟩⟩
  have hle := queued_write hok samples t
  rw [limit, write_format, hf, Nat.mul_comm] at hle
  exact hle

end

end Queue

end Vento.Audio
