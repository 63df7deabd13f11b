import Mathlib.Algebra.Order.Group.Unbundled.Int
import Mathlib.Algebra.Ring.Int.Defs
import Mathlib.Algebra.Ring.Nat
import Vento.Audio.Rhythm
/-!
# A stream's frames in the device's format

`media/audio/resample.rs`. Where the rates are the same the frames are copied, with
their channels mapped; where they differ each frame of the device is between two of the
stream, the `a` and the `b` that the resampler holds, `frac` of the way from one to the
other in 32.32 fixed point.

Samples are integers: what the conversion makes of two samples lies between them, and
what it makes of a frame's samples is their average, so no cast to `i16` loses anything.
-/

namespace Vento.Audio

/-- One in 32.32 fixed point. -/
def one : Nat := 2 ^ 32

/-- One frame into another channel count. -/
def mapChannels (frame : List Int) (channels : Nat) : List Int :=
  if frame.length = channels then frame
  else if frame.length = 1 then List.replicate channels (frame.getD 0 0)
  else if channels = 1 then [frame.sum.tdiv frame.length]
  else (List.range channels).map fun c => frame.getD c 0

structure Resampler where
  a : List Int
  b : List Int
  frac : Nat
  loaded : Bool
deriving DecidableEq, Repr

namespace Resampler

def new : Resampler := ⟨[], [], 0, false⟩

/-- Forgets the frames it had. -/
def reset (r : Resampler) : Resampler := { r with loaded := false }

/-- The source frames for each frame of output. -/
def stepOf (source device : Format) : Nat := source.rate * one / device.rate

/-- Moves on by `n` source frames, which is how often `frac` holds a whole one; stops
where the source runs out. -/
def feed (channels : Nat) : Nat → Resampler → List Int → Resampler × List Int × Bool
  | 0, r, source => (r, source, true)
  | n + 1, r, source =>
    if source.length < channels then (r, source, false)
    else
      feed channels n { r with a := r.b, b := source.take channels, frac := r.frac - one } (source.drop channels)

/-- The frame `frac` of the way from `a` to `b`. -/
def between (r : Resampler) : List Int :=
  List.zipWith (fun a b : Int => a + ((b - a) * (r.frac : Int)) >>> (32 : Nat)) r.a r.b

/-- What a run leaves and what it filled: the resampler, the rest of the source, and the
frames of output. -/
structure Ran where
  resampler : Resampler
  source : List Int
  filled : List (List Int)
deriving DecidableEq, Repr

/-- Up to `n` frames of output; fewer where the source runs out. -/
def convert (source device : Format) : Nat → Resampler → List Int → Ran
  | 0, r, samples => ⟨r, samples, []⟩
  | n + 1, r, samples =>
    match feed source.channels (r.frac / one) r samples with
    | (r, samples, false) => ⟨r, samples, []⟩
    | (r, samples, true) =>
      let ran := convert source device n { r with frac := r.frac + stepOf source device } samples
      { ran with filled := mapChannels r.between device.channels :: ran.filled }

/-- The first `n` frames of the samples. -/
def framesOf (channels n : Nat) (samples : List Int) : List (List Int) :=
  (List.range n).map fun i => (samples.drop (i * channels)).take channels

/-- The two frames that output starts between, if there are two. -/
def load (channels : Nat) (r : Resampler) (samples : List Int) : Option (Resampler × List Int) :=
  if r.loaded then some (r, samples)
  else if samples.length < 2 * channels then none
  else
    some (⟨samples.take channels, (samples.drop channels).take channels, 0, true⟩, samples.drop (2 * channels))

/-- `frames` frames of output from the front of the samples. -/
def run (r : Resampler) (samples : List Int) (source device : Format) (frames : Nat) : Ran :=
  if source.rate = device.rate then
    let n := min frames (samples.length / source.channels)
    ⟨r, samples.drop (n * source.channels),
      (framesOf source.channels n samples).map fun frame => mapChannels frame device.channels⟩
  else
    match load source.channels r samples with
    | none => ⟨r, samples, []⟩
    | some (r, samples) => convert source device frames r samples

/-! ## What a run takes -/

variable {source device : Format} {r : Resampler} {samples : List Int} {frames : Nat}

theorem one_pos : 0 < one := by decide

theorem stepOf_pos (source device : Format) : 0 < stepOf source device := by
  apply Nat.div_pos
  · have hd := device.rate_ok.2
    have hs := source.rate_ok.1
    have : 8000 * one ≤ source.rate * one := Nat.mul_le_mul_right _ hs
    unfold one at *
    omega
  · have := device.rate_ok.1
    omega

/-- What the frames given to `feed` come to: as many as it was to move on by, or all that
there were. -/
theorem feed_spec {channels n : Nat} {r r' : Resampler} {samples samples' : List Int} {all : Bool}
    (h : feed channels n r samples = (r', samples', all)) (hc : 0 < channels) {m : Nat}
    (hm : samples.length = m * channels) (hn : n * one ≤ r.frac) : ∃ m',
    samples'.length = m' * channels ∧ r'.loaded = r.loaded ∧
    (all = true → m = m' + n ∧ r.frac = r'.frac + n * one) ∧ (all = false → m' = 0) := by
  induction n generalizing r samples m with
  | zero =>
    cases h
    exact ⟨m, hm, rfl, fun _ => ⟨rfl, by simp⟩, nofun⟩
  | succ n ih =>
    rw [feed] at h
    split at h
    · rename_i hlt
      cases h
      refine ⟨m, hm, rfl, nofun, fun _ => ?_⟩
      rw [hm] at hlt
      exact Nat.eq_zero_of_not_pos fun hp => absurd (Nat.le_mul_of_pos_left channels hp) (Nat.not_le.2 hlt)
    · rename_i hle
      rw [Nat.add_mul, Nat.one_mul] at hn
      obtain ⟨k, rfl⟩ : ∃ k, m = k + 1 := by
        cases m with
        | zero => omega
        | succ k => exact ⟨k, rfl⟩
      have hlen : (samples.drop channels).length = k * channels := by
        rw [List.length_drop, hm, Nat.add_mul, Nat.one_mul, Nat.add_sub_cancel]
      obtain ⟨m', hm', hl, hok, hstop⟩ := ih h hlen (by
        dsimp only
        omega)
      refine ⟨m', hm', hl, fun h => ?_, hstop⟩
      obtain ⟨h1, h2⟩ := hok h
      dsimp only at h2
      rw [Nat.add_mul, Nat.one_mul]
      omega

theorem channels_pos (f : Format) : 0 < f.channels := f.channels_ok.1

/-- A conversion that fills all it was asked for has moved on by a step for each frame;
one that does not has taken all the source. -/
theorem convert_spec {n : Nat} {r : Resampler} {samples : List Int} {ran : Ran}
    (h : convert source device n r samples = ran) {m : Nat} (hm : samples.length = m * source.channels) :
    ∃ m', ran.source.length = m' * source.channels ∧ ran.resampler.loaded = r.loaded ∧ ran.filled.length ≤ n ∧
    (ran.filled.length = n → (0 < n → ran.resampler.frac < one + stepOf source device) ∧
      m' * one + r.frac + n * stepOf source device = m * one + ran.resampler.frac) ∧
    (ran.filled.length < n → m' = 0) := by
  induction n generalizing r samples m ran with
  | zero =>
    subst h
    exact ⟨m, hm, rfl, Nat.le_refl 0, fun _ => ⟨nofun, by simp [convert]⟩, nofun⟩
  | succ n ih =>
    have hdiv := Nat.div_add_mod r.frac one
    have hmod := Nat.mod_lt r.frac one_pos
    rw [convert] at h
    split at h
    · rename_i r₁ s₁ hf
      obtain ⟨m₁, hm₁, hl, -, hstop⟩ := feed_spec hf (channels_pos source) hm (Nat.div_mul_le_self _ _)
      subst h
      exact ⟨m₁, hm₁, hl, Nat.zero_le _, nofun, fun _ => hstop rfl⟩
    · rename_i r₁ s₁ hf
      obtain ⟨m₁, hm₁, hl, hok, -⟩ := feed_spec hf (channels_pos source) hm (Nat.div_mul_le_self _ _)
      obtain ⟨hmm, hfrac⟩ := hok rfl
      have hr₁ : r₁.frac < one := by
        rw [Nat.mul_comm] at hdiv
        omega
      dsimp only at h
      generalize hran : convert source device n { r₁ with frac := r₁.frac + stepOf source device } s₁ = ran₁ at h
      obtain ⟨m', hm', hl', hle, hall, hshort⟩ := ih hran hm₁
      subst h
      refine ⟨m', hm', hl'.trans hl, Nat.succ_le_succ hle, fun h => ?_, fun h => hshort (Nat.lt_of_succ_lt_succ h)⟩
      obtain ⟨hlt, hsum⟩ := hall (Nat.succ.inj h)
      refine ⟨fun _ => ?_, ?_⟩
      · cases n with
        | zero =>
          subst hran
          exact Nat.add_lt_add_right hr₁ _
        | succ n => exact hlt (Nat.succ_pos n)
      · have hm₂ : m * one = m₁ * one + r.frac / one * one := by rw [hmm, Nat.add_mul]
        have hstep : (n + 1) * stepOf source device = n * stepOf source device + stepOf source device := by
          rw [Nat.add_mul, Nat.one_mul]
        dsimp only at hsum ⊢
        omega

theorem length_framesOf (channels n : Nat) (samples : List Int) : (framesOf channels n samples).length = n := by
  simp [framesOf]

/-- Frames of the same rate are taken as they are. -/
theorem run_same (hr : source.rate = device.rate) {m : Nat} (hm : samples.length = m * source.channels) :
    run r samples source device frames = ⟨r, samples.drop (min frames m * source.channels),
      (framesOf source.channels (min frames m) samples).map fun frame => mapChannels frame device.channels⟩ := by
  rw [run, if_pos hr, hm, Nat.mul_div_cancel _ (channels_pos source)]

/-- Too little to start between leaves everything as it was. -/
theorem run_unloaded (hr : source.rate ≠ device.rate) (hl : r.loaded = false) (hs : samples.length < 2 * source.channels) :
    run r samples source device frames = ⟨r, samples, []⟩ := by
  rw [run, if_neg hr, load, hl, if_neg Bool.false_ne_true, if_pos hs]

/-- How far the source reaches beyond the next frame of output. -/
def ahead (source device : Format) (r : Resampler) (m : Nat) : Int :=
  if source.rate = device.rate then m else m * one - (if r.loaded then r.frac else 0)

/-- A run that can start fills what it was asked for and is that much nearer the end of
the source, or takes all of it. -/
theorem run_spec {ran : Ran} (h : run r samples source device frames = ran) {m : Nat}
    (hm : samples.length = m * source.channels) (hstart : source.rate = device.rate ∨ r.loaded = true ∨ 2 ≤ m) :
    ∃ m', ran.source.length = m' * source.channels ∧ ran.filled.length ≤ frames ∧
    (source.rate = device.rate ∨ ran.resampler.loaded = true) ∧
    (0 < frames → ran.filled.length = frames → ahead source device ran.resampler m' < ahead source device r m ∧
      -(one + stepOf source device : Int) ≤ ahead source device ran.resampler m') ∧
    (ran.filled.length < frames → m' = 0) := by
  by_cases hr : source.rate = device.rate
  · rw [run_same hr hm] at h
    subst h
    refine ⟨m - min frames m, ?_, ?_, .inl hr, fun hf hall => ?_, fun hlt => ?_⟩
    · rw [List.length_drop, hm, Nat.sub_mul]
    · simp only [List.length_map, length_framesOf]
      exact Nat.min_le_left _ _
    · simp only [List.length_map, length_framesOf] at hall
      simp only [ahead, if_pos hr]
      omega
    · simp only [List.length_map, length_framesOf] at hlt
      omega
  · have hload : ∃ r₁ s₁ m₁, load source.channels r samples = some (r₁, s₁) ∧ s₁.length = m₁ * source.channels ∧
        r₁.loaded = true ∧ (m₁ * one : Int) - r₁.frac ≤ ahead source device r m := by
      rw [load, ahead, if_neg hr]
      cases hl : r.loaded with
      | true => exact ⟨r, samples, m, rfl, hm, hl, Int.le_refl _⟩
      | false =>
        have h2 : 2 ≤ m := (hstart.resolve_left hr).resolve_left (by simp [hl])
        have hlen : ¬samples.length < 2 * source.channels := by
          rw [hm]
          exact Nat.not_lt.2 (Nat.mul_le_mul_right _ h2)
        rw [if_neg Bool.false_ne_true, if_neg hlen]
        refine ⟨_, _, m - 2, rfl, ?_, rfl, ?_⟩
        · rw [List.length_drop, hm, Nat.sub_mul]
        · have : (m - 2) * one ≤ m * one := Nat.mul_le_mul_right _ (Nat.sub_le m 2)
          simp only [Bool.false_eq_true, if_false]
          omega
    obtain ⟨r₁, s₁, m₁, hl, hm₁, hloaded, hle⟩ := hload
    rw [run, if_neg hr, hl] at h
    obtain ⟨m', hm', hl', hlen, hall, hshort⟩ := convert_spec h hm₁
    have hend : ahead source device ran.resampler m' = m' * one - ran.resampler.frac := by
      rw [ahead, if_neg hr, hl', hloaded, if_pos rfl]
    refine ⟨m', hm', hlen, .inr (hl'.trans hloaded), fun hf h => ?_, hshort⟩
    obtain ⟨hlt, hsum⟩ := hall h
    have hlt := hlt hf
    have hpos : 0 < frames * stepOf source device := Nat.mul_pos hf (stepOf_pos source device)
    rw [hend]
    omega

/-- Whole frames are taken and whole frames are left, whether a run can start or not. -/
theorem run_whole {ran : Ran} (h : run r samples source device frames = ran) {m : Nat}
    (hm : samples.length = m * source.channels) : ∃ m', ran.source.length = m' * source.channels := by
  by_cases hstart : source.rate = device.rate ∨ r.loaded = true ∨ 2 ≤ m
  · obtain ⟨m', hm', -⟩ := run_spec h hm hstart
    exact ⟨m', hm'⟩
  · rw [not_or, not_or, Bool.not_eq_true, Nat.not_le] at hstart
    obtain ⟨hr, hl, h2⟩ := hstart
    have hs : samples.length < 2 * source.channels := by
      rw [hm]
      exact Nat.mul_lt_mul_of_pos_right h2 (channels_pos source)
    rw [run_unloaded hr hl hs] at h
    subst h
    exact ⟨m, hm⟩

end Resampler

end Vento.Audio
