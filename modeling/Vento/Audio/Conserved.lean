import Vento.Lib.Tape
import Vento.Audio.Latency
/-!
# No frame is lost count of

A queue whose device has the stream's own format, against a tape of the frames written to
it: what a pull hands over is heard, what a skip drops is lost, and the frames that a skip
fades into are blended with those that it drops.
-/

namespace Vento.Audio

open Vento.Lib Duration

/-! ## Frames of one width -/

section

variable {channels : Nat} {fs : List (List Int)}

theorem length_flatten (h : ∀ f ∈ fs, f.length = channels) : fs.flatten.length = fs.length * channels := by
  induction fs with
  | nil => simp
  | cons f fs ih =>
    rw [List.flatten_cons, List.length_append, h f List.mem_cons_self, ih fun g hg => h g (List.mem_cons_of_mem f hg),
      List.length_cons, Nat.add_mul, Nat.one_mul, Nat.add_comm]

theorem drop_flatten (h : ∀ f ∈ fs, f.length = channels) (n : Nat) : fs.flatten.drop (n * channels) = (fs.drop n).flatten := by
  induction fs generalizing n with
  | nil => simp
  | cons f fs ih =>
    cases n with
    | zero => simp
    | succ n =>
      rw [List.flatten_cons, Nat.add_mul, Nat.one_mul, Nat.add_comm, ← List.drop_drop, ← h f List.mem_cons_self,
        List.drop_left, h f List.mem_cons_self, ih fun g hg => h g (List.mem_cons_of_mem f hg), List.drop_succ_cons]

theorem framesOf_succ (n : Nat) (samples : List Int) : Resampler.framesOf channels (n + 1) samples =
    samples.take channels :: Resampler.framesOf channels n (samples.drop channels) := by
  simp [Resampler.framesOf, List.range_succ_eq_map, Nat.add_mul, Nat.add_comm channels]

theorem framesOf_flatten (h : ∀ f ∈ fs, f.length = channels) {n : Nat} (hn : n ≤ fs.length) :
    Resampler.framesOf channels n fs.flatten = fs.take n := by
  induction fs generalizing n with
  | nil =>
    rw [Nat.le_zero.1 hn]
    rfl
  | cons f fs ih =>
    cases n with
    | zero => rfl
    | succ n =>
      rw [framesOf_succ, List.flatten_cons, ← h f List.mem_cons_self, List.take_left, List.drop_left, List.take_succ_cons,
        h f List.mem_cons_self, ih (fun g hg => h g (List.mem_cons_of_mem f hg)) (Nat.le_of_succ_le_succ hn)]

theorem flatten_framesOf {n : Nat} {samples : List Int} (hn : n * channels ≤ samples.length) :
    (Resampler.framesOf channels n samples).flatten = samples.take (n * channels) := by
  induction n generalizing samples with
  | zero => simp [Resampler.framesOf]
  | succ n ih =>
    rw [Nat.add_mul, Nat.one_mul] at hn
    have hlen : n * channels ≤ (samples.drop channels).length := by
      rw [List.length_drop]
      omega
    rw [framesOf_succ, List.flatten_cons, ih hlen, Nat.add_mul, Nat.one_mul, Nat.add_comm, List.take_add]

theorem width_framesOf {n : Nat} {samples : List Int} (hn : n * channels ≤ samples.length) :
    ∀ f ∈ Resampler.framesOf channels n samples, f.length = channels := by
  intro f hf
  obtain ⟨i, hi, rfl⟩ := List.mem_map.1 hf
  have hle : (i + 1) * channels ≤ n * channels := Nat.mul_le_mul_right _ (List.mem_range.1 hi)
  rw [Nat.add_mul, Nat.one_mul] at hle
  rw [List.length_take, List.length_drop]
  omega

theorem getElem?_flatten (hc : 0 < channels) (h : ∀ f ∈ fs, f.length = channels) (k : Nat) :
    fs.flatten[k]? = fs[k / channels]?.bind fun f => f[k % channels]? := by
  induction fs generalizing k with
  | nil => simp
  | cons f fs ih =>
    have hf := h f List.mem_cons_self
    rw [List.flatten_cons]
    by_cases hk : k < channels
    · rw [List.getElem?_append_left (by rwa [hf]), Nat.div_eq_of_lt hk, Nat.mod_eq_of_lt hk]
      rfl
    · obtain ⟨j, rfl⟩ : ∃ j, k = j + channels := ⟨k - channels, by omega⟩
      rw [List.getElem?_append_right (by rw [hf]; omega), hf, Nat.add_sub_cancel, Nat.add_div_right _ hc, Nat.add_mod_right,
        List.getElem?_cons_succ]
      exact ih (fun g hg => h g (List.mem_cons_of_mem f hg)) j

end

namespace Queue

/-! ## Fades -/

/-- Each sample of `w` lies between those of `u` and `v`. -/
def Between (u v w : List Int) : Prop :=
  w.length = v.length ∧ ∀ (c : Nat) (z : Int), w[c]? = some z →
    ∃ x y, u[c]? = some x ∧ v[c]? = some y ∧ min x y ≤ z ∧ z ≤ max x y

/-- A frame of a fade: the sample of each channel. -/
def blendFrame (fade i : Nat) (old new : List Int) : List Int := List.zipWith (blend fade i) old new

theorem weight_le {fade i : Nat} (h : i < fade) : (i + 1) <<< 16 / (fade + 1) ≤ 65536 := by
  rw [Nat.shiftLeft_eq]
  apply Nat.div_le_of_le_mul
  rw [Nat.mul_comm (fade + 1)]
  have : (i + 1) * 2 ^ 16 ≤ 2 ^ 16 * (fade + 1) := by omega
  exact this

theorem blend_between {fade i : Nat} (h : i < fade) (old new : Int) :
    min old new ≤ blend fade i old new ∧ blend fade i old new ≤ max old new := by
  have hw := weight_le h
  unfold blend
  generalize (i + 1) <<< 16 / (fade + 1) = w at hw ⊢
  dsimp only
  rw [Int.shiftRight_eq_div_pow]
  obtain ⟨d, hd⟩ : ∃ d, d = new - old := ⟨_, rfl⟩
  have hsum : old * (65536 - (w : Int)) + new * w = old * 65536 + d * w := by
    rw [hd, Int.mul_sub, Int.sub_mul]
    omega
  rw [hsum]
  rcases Int.le_total old new with hle | hle
  · have h0 : 0 ≤ d * w := Int.mul_nonneg (by omega) (by omega)
    have h1 : d * w ≤ d * 65536 := Int.mul_le_mul_of_nonneg_left (by omega) (by omega)
    constructor
    · apply Int.le_ediv_of_mul_le (by decide)
      omega
    · apply Int.ediv_le_of_le_mul (by decide)
      omega
  · have h0 : d * w ≤ 0 := Int.mul_nonpos_of_nonpos_of_nonneg (by omega) (by omega)
    have h1 : d * 65536 ≤ d * w := Int.mul_le_mul_of_nonpos_left (by omega) (by omega)
    constructor
    · apply Int.le_ediv_of_mul_le (by decide)
      omega
    · apply Int.ediv_le_of_le_mul (by decide)
      omega

theorem blendFrame_between {fade i : Nat} (h : i < fade) {old new : List Int} (hlen : old.length = new.length) :
    Between old new (blendFrame fade i old new) := by
  refine ⟨by simp [blendFrame, hlen], fun c z hz => ?_⟩
  rw [blendFrame, List.getElem?_zipWith] at hz
  split at hz
  · rename_i x y hx hy
    cases hz
    exact ⟨x, y, hx, hy, blend_between h x y⟩
  · cases hz

/-- The frames that follow those dropped, with the first of them faded into. -/
def faded (fade : Nat) (olds fs : List (List Int)) : List (List Int) :=
  fs.mapIdx fun i f => match olds[i]? with
    | some old => blendFrame fade i old f
    | none => f

section

variable {channels : Nat} {fs : List (List Int)}

theorem width_faded {fade : Nat} {olds : List (List Int)} (ho : ∀ f ∈ olds, f.length = channels)
    (h : ∀ f ∈ fs, f.length = channels) : ∀ f ∈ faded fade olds fs, f.length = channels := by
  intro f hf
  obtain ⟨i, hi, rfl⟩ := List.mem_mapIdx.1 hf
  have hfi := h _ (List.getElem_mem hi)
  split
  · rename_i old hold
    rw [blendFrame, List.length_zipWith, ho old (List.mem_of_getElem? hold), hfi, Nat.min_self]
  · exact hfi

/-- The fade of a skip, a sample at a time, is the fade of its frames. -/
theorem mapIdx_faded (hc : 0 < channels) (h : ∀ f ∈ fs, f.length = channels) {n fade : Nat} (hf : fade ≤ fs.length) :
    (fs.flatten.drop (n * channels)).mapIdx (fun k new =>
      if k < fade * channels then blend fade (k / channels) (fs.flatten.getD k 0) new else new) =
    (faded fade (fs.take fade) (fs.drop n)).flatten := by
  have hold : ∀ f ∈ fs.take fade, f.length = channels := fun f hf => h f (List.mem_of_mem_take hf)
  have hnew : ∀ f ∈ fs.drop n, f.length = channels := fun f hf => h f (List.mem_of_mem_drop hf)
  rw [drop_flatten h]
  apply List.ext_getElem?
  intro k
  rw [List.getElem?_mapIdx, getElem?_flatten hc hnew, getElem?_flatten hc (width_faded hold hnew), faded, List.getElem?_mapIdx]
  cases hg : (fs.drop n)[k / channels]? with
  | none => rfl
  | some g =>
    have hlen : k % channels < g.length := by
      rw [hnew g (List.mem_of_getElem? hg)]
      exact Nat.mod_lt k hc
    simp only [Option.bind_some, Option.map_some, List.getElem?_eq_getElem hlen]
    by_cases hk : k / channels < fade
    · have hk' : k < fade * channels := (Nat.div_lt_iff_lt_mul hc).1 hk
      have ho : (fs.take fade)[k / channels]? = some fs[k / channels] := by
        rw [List.getElem?_take_of_lt hk, List.getElem?_eq_getElem (by omega)]
      have hlo : k % channels < fs[k / channels].length := by
        rw [h _ (List.getElem_mem _)]
        exact Nat.mod_lt k hc
      have hget : fs.flatten.getD k 0 = fs[k / channels][k % channels] := by
        rw [List.getD_eq_getElem?_getD, getElem?_flatten hc h, List.getElem?_eq_getElem (by omega : k / channels < fs.length),
          Option.bind_some, List.getElem?_eq_getElem hlo]
        rfl
      rw [if_pos hk', ho, hget]
      simp only [blendFrame, List.getElem?_zipWith, List.getElem?_eq_getElem hlo, List.getElem?_eq_getElem hlen]
    · have hk' : ¬k < fade * channels := fun hlt => hk ((Nat.div_lt_iff_lt_mul hc).2 hlt)
      have ho : (fs.take fade)[k / channels]? = none := by
        rw [List.getElem?_eq_none_iff, List.length_take]
        omega
      rw [if_neg hk', ho]
      exact (List.getElem?_eq_getElem hlen).symm

end

/-! ## The tape of a queue -/

/-- How a tape of a stream's frames comes about: by whole frames, what is handed over,
and skips that fade over no more than a fade's length. -/
inductive Recorded (format : Format) : Tape (List Int) → Prop
  | new : Recorded format Tape.new
  | append {t : Tape (List Int)} {fs : List (List Int)} : Recorded format t → (∀ f ∈ fs, f.length = format.channels) →
    Recorded format (t.append fs)
  | take {t : Tape (List Int)} {n : Nat} : Recorded format t → Recorded format (t.take n)
  | skip {t : Tape (List Int)} {n fade : Nat} : Recorded format t → fade ≤ n → n + fade ≤ t.kept.length →
    fade ≤ format.frames Policy.fade → Recorded format (t.skip n fade (blendFrame fade))

/-- The frames of pieces. -/
def values (ps : List (Piece (List Int))) : List (List Int) := ps.map Piece.value

theorem values_joinAll (fade : Nat) (olds ps : List (Piece (List Int))) :
    values (Tape.joinAll (blendFrame fade) olds ps) = faded fade (values olds) (values ps) := by
  apply List.ext_getElem
  · simp [values, Tape.joinAll, faded]
  · intro i h h'
    simp only [values, Tape.joinAll, faded, List.getElem_map, List.getElem_mapIdx, List.getElem?_map]
    cases olds[i]? with
    | none => rfl
    | some old => rfl

theorem values_pieces (start : Nat) (fs : List (List Int)) : values (Tape.pieces start fs) = fs := by
  apply List.ext_getElem
  · simp [values, Tape.pieces]
  · intro i h h'
    simp [values, Tape.pieces]

theorem values_append (ps qs : List (Piece (List Int))) : values (ps ++ qs) = values ps ++ values qs := List.map_append

theorem values_take (ps : List (Piece (List Int))) (n : Nat) : values (ps.take n) = (values ps).take n := List.map_take

theorem values_drop (ps : List (Piece (List Int))) (n : Nat) : values (ps.drop n) = (values ps).drop n := List.map_drop

theorem Recorded.width {format : Format} {t : Tape (List Int)} (h : Recorded format t) :
    ∀ f ∈ values t.kept, f.length = format.channels := by
  induction h with
  | new => nofun
  | append _ hfs ih =>
    intro f hf
    rw [Tape.append, values_append, values_pieces] at hf
    rcases List.mem_append.1 hf with hf | hf
    · exact ih f hf
    · exact hfs f hf
  | take _ ih =>
    intro f hf
    rw [Tape.take, values_drop] at hf
    exact ih f (List.mem_of_mem_drop hf)
  | skip _ _ _ _ ih =>
    rw [Tape.skip, values_joinAll, values_take, values_drop]
    exact width_faded (fun f hf => ih f (List.mem_of_mem_take hf)) fun f hf => ih f (List.mem_of_mem_drop hf)

theorem Recorded.accounted {format : Format} {t : Tape (List Int)} (h : Recorded format t) : Tape.Accounted Between t := by
  induction h with
  | new => exact Tape.accounted_new
  | append _ _ ih => exact ih.append _
  | take _ ih => exact ih.take _
  | skip hr hle _ _ ih =>
    refine ih.skip hle fun i u v hi hu hv => blendFrame_between hi ?_
    rw [hr.width _ (List.mem_map_of_mem hu), hr.width _ (List.mem_map_of_mem hv)]

/-- The tape is that of the queue. -/
structure Tracks (q : Queue) (t : Tape (List Int)) : Prop where
  recorded : Recorded q.format t
  samples : q.samples = (values t.kept).flatten
  written : q.stats.written = t.written.length
  dropped : q.stats.dropped = t.lost.length

namespace Tracks

variable {q q' : Queue} {t : Tape (List Int)}

theorem length_samples (h : Tracks q t) : q.samples.length = t.kept.length * q.format.channels := by
  rw [h.samples, length_flatten h.recorded.width, values, List.length_map]

theorem queued_eq (h : Tracks q t) : q.queued = t.kept.length := queued_of_length h.length_samples

theorem congr (h : Tracks q t) (hf : q'.format = q.format) (hs : q'.samples = q.samples) (hw : q'.stats = q.stats) :
    Tracks q' t :=
  ⟨hf ▸ h.recorded, hs.trans h.samples, hw ▸ h.written, hw ▸ h.dropped⟩

theorem new (format : Format) : Tracks (Queue.new format) Tape.new := ⟨.new, rfl, rfl, rfl⟩

/-- The same as `t`, but for what has been dropped since. -/
def Since (q : Queue) (t : Tape (List Int)) : Prop := ∃ t', Tracks q t' ∧ t'.written = t.written ∧ t'.heard = t.heard

theorem since (h : Tracks q t) : Since q t := ⟨t, h, rfl, rfl⟩

theorem skip (h : Tracks q t) (n : Nat) : Since (q.skip n) t := by
  have hq := h.queued_eq
  have hfade : q.fadeOver (min n q.queued) ≤ min n q.queued ∧ min n q.queued + q.fadeOver (min n q.queued) ≤ t.kept.length ∧
      q.fadeOver (min n q.queued) ≤ q.format.frames Policy.fade := by
    unfold fadeOver
    omega
  refine ⟨t.skip (min n q.queued) (q.fadeOver (min n q.queued)) (blendFrame (q.fadeOver (min n q.queued))),
    ⟨.skip h.recorded hfade.1 hfade.2.1 hfade.2.2, ?_, h.written, ?_⟩, rfl, rfl⟩
  · have hlen : q.fadeOver (min n q.queued) ≤ (values t.kept).length := by
      rw [values, List.length_map]
      omega
    rw [Tape.skip, values_joinAll, values_take, values_drop,
      ← mapIdx_faded (Resampler.channels_pos q.format) h.recorded.width hlen, ← h.samples]
    rfl
  · show q.stats.dropped + min n q.queued = (t.lost ++ t.kept.take (min n q.queued)).length
    rw [List.length_append, List.length_take, h.dropped]
    omega

theorem Since.congr (h : Since q t) (hf : q'.format = q.format) (hs : q'.samples = q.samples) (hw : q'.stats = q.stats) :
    Since q' t := by
  obtain ⟨t', h', hw', hh'⟩ := h
  exact ⟨t', h'.congr hf hs hw, hw', hh'⟩

theorem Since.trans {t' : Tape (List Int)} (h : Since q t') (hw : t'.written = t.written) (hh : t'.heard = t.heard) : Since q t := by
  obtain ⟨t'', h'', hw'', hh''⟩ := h
  exact ⟨t'', h'', hw''.trans hw, hh''.trans hh⟩

theorem trimTo (h : Tracks q t) (keep : Nat) : Since (q.trimTo keep) t := by
  unfold Queue.trimTo
  split
  · exact (h.skip _).congr rfl rfl rfl
  · exact h.since.congr rfl rfl rfl

theorem settle (h : Tracks q t) : Since q.settle t := by
  unfold Queue.settle
  dsimp only
  split
  · exact (h.skip _).congr rfl rfl rfl
  · exact h.since.congr rfl rfl rfl

theorem arrived (h : Tracks q t) (frames now : Nat) : Tracks (q.arrived frames now) t := by
  obtain ⟨_, _, _, _, _, _, _, he, -⟩ := arrived_eq q frames now
  rw [he]
  exact h.congr rfl rfl rfl

theorem playing (h : Tracks q t) (before frames now : Nat) : Since (q.playing before frames now) t := by
  obtain ⟨since, low, clean, fresh, start, late, he, -⟩ := eased_eq q before frames now
  have h' : Tracks { q with since, low, clean, fresh, start, late } t := h.congr rfl rfl rfl
  unfold Queue.playing
  rw [he]
  dsimp only
  split
  · split
    · exact h'.settle
    · exact h'.since
  · exact h.since

theorem withinLimit (h : Tracks q t) : Since q.withinLimit t := by
  unfold Queue.withinLimit
  split
  · exact h.trimTo _
  · exact h.since

theorem received (h : Tracks q t) (samples : List Int) : Tracks (q.received samples)
    (t.append (Resampler.framesOf q.format.channels (samples.length / q.format.channels) samples)) := by
  have hle : samples.length / q.format.channels * q.format.channels ≤ samples.length := Nat.div_mul_le_self _ _
  refine ⟨.append h.recorded (width_framesOf hle), ?_, ?_, h.dropped⟩
  · rw [Tape.append, values_append, values_pieces, List.flatten_append, flatten_framesOf hle, ← h.samples]
    rfl
  · show q.stats.written + samples.length / q.format.channels = (t.written ++ _).length
    rw [List.length_append, Resampler.length_framesOf, h.written]

/-- A write adds its whole frames. -/
theorem write (h : Tracks q t) (samples : List Int) (now : Nat) : ∃ t', Tracks (q.write samples now) t' ∧
    t'.written = t.written ++ Resampler.framesOf q.format.channels (samples.length / q.format.channels) samples ∧
    t'.heard = t.heard := by
  rw [write_eq]
  obtain ⟨t₁, h₁, hw₁, hh₁⟩ := ((h.received samples).arrived (samples.length / q.format.channels) now).playing q.samples.length
    (samples.length / q.format.channels) now
  obtain ⟨t₂, h₂, hw₂, hh₂⟩ := h₁.withinLimit
  exact ⟨t₂, h₂, hw₂.trans hw₁, hh₂.trans hh₁⟩

theorem ready (h : Tracks q t) (device : Format) (frames now : Nat) : Since (q.ready device frames now) t := by
  have hc : Tracks (q.counted frames) t := h.congr rfl rfl rfl
  unfold Queue.ready
  split
  · unfold await
    dsimp only
    split
    · exact hc.since.congr rfl rfl rfl
    · split
      · exact (hc.trimTo _).congr rfl rfl rfl
      · split
        · exact hc.since.congr rfl rfl rfl
        · exact hc.since
  · exact hc.since

theorem mapChannels_self {frame : List Int} {channels : Nat} (h : frame.length = channels) : mapChannels frame channels = frame := by
  rw [mapChannels, if_pos h]

/-- What the queue plays is what is kept, in order. -/
theorem play (h : Tracks q t) (frames : Nat) : ∃ n, Tracks (q.play q.format frames).1 (t.take n) ∧
    (q.play q.format frames).2 = values (t.kept.take n) ∧ n ≤ t.kept.length ∧ n ≤ frames := by
  unfold Queue.play
  split
  · have hwidth : ∀ f ∈ (values t.kept).take (min frames t.kept.length), f.length = q.format.channels :=
      fun f hf => h.recorded.width f (List.mem_of_mem_take hf)
    have hle : min frames t.kept.length ≤ (values t.kept).length := by
      rw [values, List.length_map]
      exact Nat.min_le_right _ _
    have hran : q.resampler.run q.samples q.format q.format frames = _ := Resampler.run_same rfl h.length_samples
    have hfilled : ((Resampler.framesOf q.format.channels (min frames t.kept.length) q.samples).map fun frame =>
        mapChannels frame q.format.channels) = values (t.kept.take (min frames t.kept.length)) := by
      rw [h.samples, framesOf_flatten h.recorded.width hle, values_take]
      conv_rhs => rw [← List.map_id ((values t.kept).take _)]
      exact List.map_congr_left fun f hf => mapChannels_self (hwidth f hf)
    have hleft : q.samples.drop (min frames t.kept.length * q.format.channels) =
        (values (t.kept.drop (min frames t.kept.length))).flatten := by
      rw [h.samples, drop_flatten h.recorded.width, values_drop]
    rw [hfilled, hleft] at hran
    refine ⟨min frames t.kept.length, ?_, ?_, Nat.min_le_right _ _, Nat.min_le_left _ _⟩
    · dsimp only
      rw [hran]
      unfold took
      split
      · exact ⟨.take h.recorded, rfl, h.written, h.dropped⟩
      · exact ⟨.take h.recorded, rfl, h.written, h.dropped⟩
    · dsimp only
      rw [hran]
  · refine ⟨0, ?_, rfl, Nat.zero_le _, Nat.zero_le _⟩
    have ht : t.take 0 = t := by
      simp [Tape.take]
    rw [ht]
    exact h.congr rfl rfl rfl

end Tracks

/-! ## Every run -/

/-- The queue, and for each pull how many of its frames were sound and all that the
device was handed, as sent. -/
def hear (s : Queue × List (Nat × List Int)) : Act → Option (Queue × List (Nat × List Int))
  | .pull device frames now =>
    let (q, sound) := s.1.pull device frames now
    some (q, s.2 ++ [(sound.length, heard device frames .full sound)])
  | .write samples t => some (s.1.write samples t, s.2)
  | .setDevice buffer period => some (s.1.setDevice buffer period, s.2)
  | .ranDry seen => some ({ s.1 with late := Controls.ranDry s.1.late seen }, s.2)
  | .clean => some ({ s.1 with late := Controls.clean s.1.late }, s.2)

/-- A device that pulls has the stream's format. -/
def Act.Plain (format : Format) : Act → Prop
  | .pull device _ _ => device = format
  | _ => True

instance (format : Format) : DecidablePred (Act.Plain format)
  | .pull device _ _ => inferInstanceAs (Decidable (device = format))
  | .write _ _ | .setDevice _ _ | .ranDry _ | .clean => isTrue trivial

/-- The whole frames of a call. -/
def Act.frames (format : Format) : Act → List (List Int)
  | .write samples _ => Resampler.framesOf format.channels (samples.length / format.channels) samples
  | _ => []

/-- What the sound that the device was handed, a pull after another, has of a tape. -/
structure Handed (format : Format) (outs : List (Nat × List Int)) (t : Tape (List Int)) : Prop where
  count : (outs.map Prod.fst).sum = t.heard.length
  sound : (outs.map fun o => o.2.take (o.1 * format.channels)).flatten = (values t.heard).flatten
  silence : ∀ o ∈ outs, ∀ s ∈ o.2.drop (o.1 * format.channels), s = 0

theorem heard_full {format : Format} (frames : Nat) {sound : List (List Int)} (h : ∀ f ∈ sound, f.length = format.channels) :
    (heard format frames .full sound).take (sound.length * format.channels) = sound.flatten ∧
    ∀ s ∈ (heard format frames .full sound).drop (sound.length * format.channels), s = 0 := by
  have hid : sound.flatten.map Volume.full.gain = sound.flatten := by
    rw [show Volume.full.gain = id from rfl, List.map_id]
  rw [heard, hid, ← length_flatten h, List.take_left, List.drop_left]
  exact ⟨rfl, fun s hs => List.eq_of_mem_replicate hs⟩

theorem Handed.pull {format : Format} {outs : List (Nat × List Int)} {t t' : Tape (List Int)} (h : Handed format outs t)
    {ps : List (Piece (List Int))} (ht : t'.heard = t.heard ++ ps) (hw : ∀ f ∈ values ps, f.length = format.channels) (frames : Nat) :
    Handed format (outs ++ [((values ps).length, heard format frames .full (values ps))]) t' := by
  obtain ⟨hsound, hsilence⟩ := heard_full frames hw
  refine ⟨?_, ?_, fun o ho => ?_⟩
  · rw [List.map_append, List.sum_append, h.count, ht, List.length_append]
    simp [values]
  · rw [List.map_append, List.flatten_append, h.sound, ht, values_append, List.flatten_append]
    simp only [List.map_cons, List.map_nil, List.flatten_cons, List.flatten_nil, List.append_nil, hsound]
  · rcases List.mem_append.1 ho with ho | ho
    · exact h.silence o ho
    · rw [List.mem_singleton.1 ho]
      exact hsilence

/-- What a run of calls has made of a queue, a tape and what was handed over. -/
structure Follows (format : Format) (as : List Act) (s : Queue × List (Nat × List Int)) (t : Tape (List Int)) : Prop where
  same : s.1.format = format
  tracks : Tracks s.1 t
  handed : Handed format s.2 t
  written : t.written = as.flatMap (Act.frames format)

theorem Follows.still {format : Format} {as : List Act} {a : Act} {s : Queue × List (Nat × List Int)} {t : Tape (List Int)} {q : Queue}
    (h : Follows format as s t) (hf : q.format = s.1.format) (hs : q.samples = s.1.samples) (hw : q.stats = s.1.stats)
    (ha : a.frames format = []) : Follows format (as ++ [a]) (q, s.2) t := by
  refine ⟨hf.trans h.same, h.tracks.congr hf hs hw, h.handed, ?_⟩
  rw [List.flatMap_append, h.written]
  simp [ha]

theorem Follows.step {format : Format} {as : List Act} {a : Act} {s : Queue × List (Nat × List Int)} {t : Tape (List Int)}
    (h : Follows format as s t) (ha : a.Plain format) : ∃ s' t', hear s a = some s' ∧ Follows format (as ++ [a]) s' t' := by
  cases a with
  | write samples now =>
    obtain ⟨t', ht', hw', hh'⟩ := h.tracks.write samples now
    rw [h.same] at hw'
    refine ⟨_, t', rfl, (write_format _ _ _).trans h.same, ht', ⟨?_, ?_, h.handed.silence⟩, ?_⟩
    · rw [hh']
      exact h.handed.count
    · rw [hh']
      exact h.handed.sound
    · rw [hw', h.written, List.flatMap_append, List.flatMap_singleton]
      rfl
  | pull device frames now =>
    obtain rfl : device = format := ha
    obtain ⟨t₁, h₁, hw₁, hh₁⟩ := h.tracks.ready device frames now
    have hformat : (s.1.ready device frames now).format = device := (ready_same _ _ _ _).format.trans h.same
    obtain ⟨n, h₂, hsound, hn, -⟩ := h₁.play frames
    rw [hformat] at h₂ hsound
    refine ⟨_, t₁.take n, rfl, (pull_format _ _ _ _).trans h.same, h₂, ?_, ?_⟩
    · have hwidth : ∀ f ∈ values (t₁.kept.take n), f.length = device.channels := by
        intro f hf
        rw [values_take] at hf
        rw [← hformat]
        exact h₁.recorded.width f (List.mem_of_mem_take hf)
      have hheard : (t₁.take n).heard = t.heard ++ t₁.kept.take n := by
        rw [Tape.take, hh₁]
      have := h.handed.pull hheard hwidth frames
      rw [← hsound] at this
      exact this
    · show t₁.written = _
      rw [hw₁, h.written, List.flatMap_append]
      simp [Act.frames]
  | setDevice buffer period => exact ⟨_, t, rfl, h.still rfl rfl rfl rfl⟩
  | ranDry seen => exact ⟨_, t, rfl, h.still rfl rfl rfl rfl⟩
  | clean => exact ⟨_, t, rfl, h.still rfl rfl rfl rfl⟩

theorem Follows.of_run {format : Format} {as : List Act} (ha : ∀ a ∈ as, a.Plain format) :
    ∃ s t, run hear (new format, []) as = some s ∧ Follows format as s t := by
  induction as using List.reverseRecOn with
  | nil => exact ⟨_, Tape.new, rfl, rfl, Tracks.new format, ⟨rfl, rfl, nofun⟩, rfl⟩
  | append_singleton as a ih =>
    obtain ⟨s, t, hs, h⟩ := ih fun b hb => ha b (List.mem_append_left _ hb)
    obtain ⟨s', t', hs', h'⟩ := h.step (ha a (by simp))
    exact ⟨s', t', run_snoc hs hs', h'⟩

/-- With a device of the stream's format, in any order of calls, every whole frame
written is dropped, queued or handed over as sound, the rest of each pull is silence, what
is handed over is in the order written, and it is what was written but for the frames of a
fade, whose samples lie between those of the two that it blends. -/
theorem frames_conserved (format : Format) (as : List Act) (ha : ∀ a ∈ as, a.Plain format) : ∃ q outs t,
    run hear (new format, []) as = some (q, outs) ∧ Recorded format t ∧ t.written = as.flatMap (Act.frames format) ∧
    q.stats.written = t.written.length ∧ q.stats.written = q.stats.dropped + q.queued + (outs.map Prod.fst).sum ∧
    Handed format outs t ∧ (Tape.places t.heard).Pairwise (· < ·) ∧
    ∀ p ∈ t.heard, Tape.Made Between t.written (Tape.places t.lost) p.place p.joined p.value ∧
      (p.joined = [] → t.written[p.place]? = some p.value) := by
  obtain ⟨⟨q, outs⟩, t, hs, h⟩ := Follows.of_run ha
  have hacc := h.tracks.recorded.accounted
  refine ⟨q, outs, t, hs, h.same ▸ h.tracks.recorded, h.written, h.tracks.written, ?_, h.handed, ?_, fun p hp => ?_⟩
  · rw [h.tracks.written, hacc.count, h.tracks.dropped, h.tracks.queued_eq, h.handed.count]
  · have := hacc.order
    rw [Tape.places_append] at this
    exact (List.pairwise_append.1 this).1
  · have hmade := hacc.made p (List.mem_append_right _ (List.mem_append_left _ hp))
    refine ⟨hmade, fun hj => ?_⟩
    rw [hj] at hmade
    exact hmade.whole_of_nil

theorem frames_conserved_tail : ∃ q outs,
    run hear (new ⟨8000, 1, by decide, by decide⟩, [])
      [.write [7, 8, 9] 0, .pull ⟨8000, 1, by decide, by decide⟩ 300 1, .pull ⟨8000, 1, by decide, by decide⟩ 300 2] =
        some (q, outs) ∧
    q.stats.written = q.stats.dropped + q.queued + (outs.map Prod.fst).sum ∧ outs.map Prod.fst = [0, 3] := by
  obtain ⟨q, outs, t, hs, -, -, -, hcount, -⟩ := frames_conserved ⟨8000, 1, by decide, by decide⟩
    [.write [7, 8, 9] 0, .pull ⟨8000, 1, by decide, by decide⟩ 300 1, .pull ⟨8000, 1, by decide, by decide⟩ 300 2] (by decide)
  refine ⟨q, outs, hs, hcount, ?_⟩
  have hrun : ((run hear (new ⟨8000, 1, by decide, by decide⟩, [])
      [.write [7, 8, 9] 0, .pull ⟨8000, 1, by decide, by decide⟩ 300 1, .pull ⟨8000, 1, by decide, by decide⟩ 300 2]).map
        fun s => s.2.map Prod.fst) = some [0, 3] := by decide +kernel
  rw [hs] at hrun
  exact Option.some.inj hrun

end Queue

end Vento.Audio
