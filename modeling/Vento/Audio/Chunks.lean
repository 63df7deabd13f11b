import Mathlib.Order.Lattice
import Mathlib.Tactic.Linarith
import Mathlib.Tactic.Ring
import Vento.Audio.Resample
/-!
# Conversion in pieces

`media/audio/resample.rs`, over every way that a source may be cut into pushes and the output into pulls: the frames
filled are those of one push and one pull (`converted`), each between the two frames of the source that its place is
between, and as many frames of the source are taken as the step says. The step is rounded down, so that is not as many
as the rates say, for ever (`converted_drifts`).
-/

namespace Vento.Audio.Resampler

variable (source device : Format)

/-! ## What is to be filled -/

def frameAt (channels : Nat) (samples : List Int) (i : Nat) : List Int := (samples.drop (i * channels)).take channels

/-- Where the frame `j` of output is in the source. -/
def position (j : Nat) : Nat := j * stepOf source device

/-- How many frames of the source the frame `j` of output is made of those up to. -/
def needs (j : Nat) : Nat := if source.rate = device.rate then j + 1 else position source device j / one + 2

/-- The frame `j` of output, in the source's channels. -/
def soundAt (samples : List Int) (j : Nat) : List Int :=
  if source.rate = device.rate then frameAt source.channels samples j
  else
    between ⟨frameAt source.channels samples (position source device j / one),
      frameAt source.channels samples (position source device j / one + 1), position source device j % one, true⟩

def outputAt (samples : List Int) (j : Nat) : List Int := mapChannels (soundAt source device samples j) device.channels

/-! ## Pushes and pulls -/

inductive Op where
  | push (samples : List Int)
  | pull (frames : Nat)

/-- The resampler, what is queued and the frames that were filled. -/
structure Stream where
  resampler : Resampler
  source : List Int
  out : List (List Int)

def Stream.after (s : Stream) : Op → Stream
  | .push samples => { s with source := s.source ++ samples }
  | .pull frames =>
    let ran := run s.resampler s.source source device frames
    ⟨ran.resampler, ran.source, s.out ++ ran.filled⟩

def played (ops : List Op) : Stream := ops.foldl (Stream.after source device) ⟨new, [], []⟩

def Op.pushed : Op → List Int
  | .push samples => samples
  | .pull _ => []

def pushed (ops : List Op) : List Int := ops.flatMap Op.pushed

/-! ## The frames of a source that grows -/

variable {source device} {channels i n : Nat} {samples : List Int}

theorem frameAt_append (h : (i + 1) * channels ≤ samples.length) (more : List Int) :
    frameAt channels (samples ++ more) i = frameAt channels samples i := by
  rw [Nat.add_mul, Nat.one_mul] at h
  rw [frameAt, frameAt, List.drop_append_of_le_length (by omega), List.take_append_of_le_length]
  rw [List.length_drop]
  omega

theorem length_frameAt (h : (i + 1) * channels ≤ samples.length) : (frameAt channels samples i).length = channels := by
  rw [Nat.add_mul, Nat.one_mul] at h
  rw [frameAt, List.length_take, List.length_drop]
  omega

theorem getD_frameAt {c : Nat} (hc : c < channels) : (frameAt channels samples i).getD c 0 = samples.getD (i * channels + c) 0 := by
  simp [frameAt, List.getD_eq_getElem?_getD, hc]

/-- The resampler holds the frames `i` and `i + 1`, and the rest is queued. -/
structure At (channels : Nat) (samples : List Int) (i : Nat) (r : Resampler) (rest : List Int) : Prop where
  a : r.a = frameAt channels samples i
  b : r.b = frameAt channels samples (i + 1)
  rest : rest = samples.drop ((i + 2) * channels)
  whole : (i + 2) * channels ≤ samples.length

theorem At.append {r : Resampler} {rest : List Int} (h : At channels samples i r rest) (more : List Int) :
    At channels (samples ++ more) i r (rest ++ more) where
  a := h.a.trans (frameAt_append (Nat.le_trans (Nat.mul_le_mul_right _ (by omega)) h.whole) more).symm
  b := h.b.trans (frameAt_append h.whole more).symm
  rest := by rw [h.rest, List.drop_append_of_le_length h.whole]
  whole := Nat.le_trans h.whole (by simp)

/-- Each frame that `feed` moves on by is the next. -/
theorem feed_at {r r' : Resampler} {rest rest' : List Int} {all : Bool} (h : feed channels n r rest = (r', rest', all))
    (hat : At channels samples i r rest) (hn : n * one ≤ r.frac) :
    ∃ k, At channels samples (i + k) r' rest' ∧ r'.loaded = r.loaded ∧ r.frac = r'.frac + k * one ∧
      (all = true → k = n) ∧ (all = false → k < n ∧ samples.length < (i + k + 3) * channels) := by
  induction n generalizing i r rest with
  | zero =>
    cases h
    exact ⟨0, hat, rfl, by simp, fun _ => rfl, fun h => absurd h Bool.false_ne_true.symm⟩
  | succ n ih =>
    rw [feed] at h
    have hlen : rest.length = samples.length - (i + 2) * channels := by rw [hat.rest, List.length_drop]
    have hthree : (i + 3) * channels = (i + 2) * channels + channels := by rw [Nat.add_mul (i + 2) 1, Nat.one_mul]
    have hwhole := hat.whole
    split at h
    · next hlt =>
      cases h
      refine ⟨0, hat, rfl, by simp, fun h => absurd h Bool.false_ne_true, fun _ => ⟨Nat.succ_pos n, ?_⟩⟩
      rw [Nat.add_zero]
      omega
    · next hle =>
      rw [Nat.add_mul, Nat.one_mul] at hn
      have hnext : At channels samples (i + 1) { r with a := r.b, b := rest.take channels, frac := r.frac - one }
          (rest.drop channels) := by
        refine ⟨hat.b, ?_, ?_, show (i + 3) * channels ≤ samples.length by omega⟩
        · rw [hat.rest]
          rfl
        · rw [hat.rest, List.drop_drop, ← hthree]
      obtain ⟨k, hk, hloaded, hfrac, hall, hshort⟩ := ih h hnext (by dsimp only; omega)
      dsimp only at hfrac
      refine ⟨k + 1, ?_, hloaded, ?_, fun h => by rw [hall h], fun h => ?_⟩
      · rwa [show i + (k + 1) = i + 1 + k by omega]
      · rw [Nat.add_mul, Nat.one_mul]
        omega
      · obtain ⟨hlt, hend⟩ := hshort h
        exact ⟨by omega, by rwa [show i + (k + 1) + 3 = i + 1 + k + 3 by omega]⟩

/-- The frames that a conversion fills are those that are due, and it stops only where the source does. -/
theorem convert_at {j : Nat} {r : Resampler} {rest : List Int} {ran : Ran} (h : convert source device n r rest = ran)
    (hat : At source.channels samples i r rest) (hne : source.rate ≠ device.rate)
    (hpos : i * one + r.frac = position source device j) (hfrac : r.frac < one + stepOf source device) :
    (∃ i', At source.channels samples i' ran.resampler ran.source ∧
        i' * one + ran.resampler.frac = position source device (j + ran.filled.length)) ∧
      ran.resampler.frac < one + stepOf source device ∧ ran.resampler.loaded = r.loaded ∧
      ran.filled = (List.range ran.filled.length).map (fun t => outputAt source device samples (j + t)) ∧
      (∀ t < ran.filled.length, needs source device (j + t) * source.channels ≤ samples.length) ∧
      ran.filled.length ≤ n ∧
      (ran.filled.length < n → samples.length < needs source device (j + ran.filled.length) * source.channels) := by
  induction n generalizing i j r rest ran with
  | zero =>
    subst h
    exact ⟨⟨i, hat, hpos⟩, hfrac, rfl, rfl, fun _ ht => absurd ht (Nat.not_lt_zero _), Nat.le_refl 0,
      fun ht => absurd ht (Nat.not_lt_zero _)⟩
  | succ n ih =>
    have hdiv : r.frac / one * one + r.frac % one = r.frac := Nat.div_add_mod' r.frac one
    have hmod := Nat.mod_lt r.frac one_pos
    rw [convert] at h
    split at h
    · next r₁ s₁ hf =>
      obtain ⟨k, hk, hloaded, hsum, -, hshort⟩ := feed_at hf hat (Nat.div_mul_le_self _ _)
      obtain ⟨hlt, hend⟩ := hshort rfl
      subst h
      refine ⟨⟨i + k, hk, ?_⟩, ?_, hloaded, rfl, fun _ ht => absurd ht (Nat.not_lt_zero _), Nat.zero_le _, fun _ => ?_⟩
      · show (i + k) * one + r₁.frac = position source device (j + 0)
        rw [Nat.add_mul, Nat.add_zero]
        omega
      · dsimp only
        omega
      · have hplace : position source device j / one = i + r.frac / one := by
          rw [← hpos, Nat.add_comm, Nat.add_mul_div_right _ _ one_pos, Nat.add_comm]
        dsimp only [List.length_nil]
        rw [Nat.add_zero, needs, if_neg hne, hplace]
        exact Nat.lt_of_lt_of_le hend (Nat.mul_le_mul_right _ (by omega))
    · next r₁ s₁ hf =>
      obtain ⟨k, hk, hloaded, hsum, hall, -⟩ := feed_at hf hat (Nat.div_mul_le_self _ _)
      obtain rfl := hall rfl
      have hr₁ : r₁.frac = r.frac % one := by omega
      generalize hi : i + r.frac / one = i₁ at hk
      have hplace : position source device j = r₁.frac + i₁ * one := by
        rw [← hi, Nat.add_mul]
        omega
      have hindex : position source device j / one = i₁ := by
        rw [hplace, Nat.add_mul_div_right _ _ one_pos, Nat.div_eq_of_lt (hr₁ ▸ hmod), Nat.zero_add]
      have hrest : position source device j % one = r₁.frac := by
        rw [hplace, Nat.add_mul_mod_self_right, Nat.mod_eq_of_lt (hr₁ ▸ hmod)]
      have hout : mapChannels r₁.between device.channels = outputAt source device samples j := by
        rw [outputAt, soundAt, if_neg hne, hindex, hrest, ← hk.a, ← hk.b]
        rfl
      have hneeds : needs source device j = i₁ + 2 := by rw [needs, if_neg hne, hindex]
      have hat₁ : At source.channels samples i₁ { r₁ with frac := r₁.frac + stepOf source device } s₁ :=
        ⟨hk.a, hk.b, hk.rest, hk.whole⟩
      have hpos₁ : i₁ * one + (r₁.frac + stepOf source device) = position source device (j + 1) := by
        rw [position, Nat.add_mul, Nat.one_mul, ← position, hplace]
        omega
      dsimp only at h
      generalize hran : convert source device n { r₁ with frac := r₁.frac + stepOf source device } s₁ = ran₁ at h
      obtain ⟨hend, hlt, hloaded₁, hfilled, hmet, hle, hshort⟩ := ih hran hat₁ hpos₁ (Nat.add_lt_add_right (hr₁ ▸ hmod) _)
      subst h
      have hshift : ∀ t, j + (t + 1) = j + 1 + t := fun t => by omega
      dsimp only [List.length_cons]
      rw [hshift]
      refine ⟨hend, hlt, hloaded₁.trans hloaded, ?_, fun t ht => ?_, Nat.succ_le_succ hle,
        fun h => hshort (Nat.lt_of_succ_lt_succ h)⟩
      · rw [List.range_succ_eq_map, List.map_cons, List.map_map, hout, hfilled, Nat.add_zero, List.length_map, List.length_range]
        refine congrArg (_ :: ·) (List.map_congr_left fun t _ => ?_)
        exact congrArg (outputAt source device samples) (hshift t).symm
      · cases t with
        | zero =>
          rw [Nat.add_zero, hneeds]
          exact hk.whole
        | succ t =>
          rw [hshift]
          exact hmet t (Nat.lt_of_succ_lt_succ ht)

/-! ## Where a conversion stands -/

/-- What the resampler holds and what is queued, of the samples pushed, after `n` frames of output. -/
inductive Stands (source device : Format) (samples : List Int) : Resampler → List Int → Nat → Prop
  | copies {r : Resampler} {n : Nat} (hr : source.rate = device.rate) (hn : n * source.channels ≤ samples.length) :
    Stands source device samples r (samples.drop (n * source.channels)) n
  | waits {r : Resampler} (hr : source.rate ≠ device.rate) (hl : r.loaded = false) : Stands source device samples r samples 0
  | holds {r : Resampler} {rest : List Int} {n i : Nat} (hr : source.rate ≠ device.rate) (hl : r.loaded = true)
    (hat : At source.channels samples i r rest) (hpos : i * one + r.frac = position source device n)
    (hfrac : r.frac < one + stepOf source device) : Stands source device samples r rest n

theorem Stands.append {r : Resampler} {rest : List Int} (h : Stands source device samples r rest n) (more : List Int) :
    Stands source device (samples ++ more) r (rest ++ more) n := by
  cases h with
  | copies hr hn =>
    rw [← List.drop_append_of_le_length hn]
    exact .copies hr (Nat.le_trans hn (by simp))
  | waits hr hl => exact .waits hr hl
  | holds hr hl hat hpos hfrac => exact .holds hr hl (hat.append more) hpos hfrac

/-- The frames that a pull fills are those that are due, as many as there can be of them. -/
structure Fills (source device : Format) (samples : List Int) (n frames : Nat) (filled : List (List Int)) : Prop where
  due : filled = (List.range filled.length).map fun t => outputAt source device samples (n + t)
  met : ∀ t < filled.length, needs source device (n + t) * source.channels ≤ samples.length
  most : filled.length ≤ frames
  short : filled.length < frames → samples.length < needs source device (n + filled.length) * source.channels

theorem copies_fills {r : Resampler} {frames : Nat} (hr : source.rate = device.rate) (hn : n * source.channels ≤ samples.length)
    {ran : Ran} (h : run r (samples.drop (n * source.channels)) source device frames = ran) :
    Stands source device samples ran.resampler ran.source (n + ran.filled.length) ∧
      Fills source device samples n frames ran.filled := by
  have hc := channels_pos source
  rw [run, if_pos hr] at h
  dsimp only at h
  rw [List.length_drop] at h
  generalize hk : min frames ((samples.length - n * source.channels) / source.channels) = k at h
  have hdiv : (samples.length - n * source.channels) / source.channels * source.channels ≤
      samples.length - n * source.channels := Nat.div_mul_le_self _ _
  have hsum : ∀ t, (n + t) * source.channels = n * source.channels + t * source.channels := fun t => Nat.add_mul n t _
  have hle : k * source.channels ≤ samples.length - n * source.channels :=
    Nat.le_trans (Nat.mul_le_mul_right _ (by omega)) hdiv
  subst h
  have hlen : ((framesOf source.channels k (samples.drop (n * source.channels))).map
      fun frame => mapChannels frame device.channels).length = k := by rw [List.length_map, length_framesOf]
  dsimp only
  rw [hlen]
  constructor
  · rw [List.drop_drop, ← hsum]
    exact .copies hr (by rw [hsum]; omega)
  · constructor <;> rw [hlen]
    · rw [framesOf, List.map_map]
      refine List.map_congr_left fun t _ => ?_
      rw [outputAt, soundAt, if_pos hr, frameAt, hsum, ← List.drop_drop]
      rfl
    · intro t ht
      rw [needs, if_pos hr, Nat.add_assoc, hsum]
      have hmul : (t + 1) * source.channels ≤ k * source.channels := Nat.mul_le_mul_right _ ht
      omega
    · omega
    · intro hlt
      rw [needs, if_pos hr, Nat.add_assoc, hsum]
      have hk' : (samples.length - n * source.channels) / source.channels = k := by omega
      have hmod := Nat.lt_div_mul_add (a := samples.length - n * source.channels) hc
      rw [hk'] at hmod
      rw [Nat.add_mul, Nat.one_mul]
      omega

theorem run_stands {r : Resampler} {rest : List Int} {frames : Nat} (hs : Stands source device samples r rest n) {ran : Ran}
    (h : run r rest source device frames = ran) :
    Stands source device samples ran.resampler ran.source (n + ran.filled.length) ∧
      Fills source device samples n frames ran.filled := by
  have hconvert : ∀ {r rest i}, source.rate ≠ device.rate → r.loaded = true → At source.channels samples i r rest →
      i * one + r.frac = position source device n → r.frac < one + stepOf source device →
      convert source device frames r rest = ran →
      Stands source device samples ran.resampler ran.source (n + ran.filled.length) ∧
        Fills source device samples n frames ran.filled := by
    intro r rest i hr hl hat hpos hfrac h
    obtain ⟨⟨i', hat', hpos'⟩, hfrac', hl', hfilled, hmet, hmost, hshort⟩ := convert_at h hat hr hpos hfrac
    exact ⟨.holds hr (hl'.trans hl) hat' hpos' hfrac', hfilled, hmet, hmost, hshort⟩
  cases hs with
  | copies hr hn => exact copies_fills hr hn h
  | waits hr hl =>
    rw [run, if_neg hr, load, hl, if_neg Bool.false_ne_true] at h
    split at h
    · next hnone =>
      split at hnone
      · next hlt =>
        subst h
        refine ⟨.waits hr hl, rfl, fun _ ht => absurd ht (Nat.not_lt_zero _), Nat.zero_le _, fun _ => ?_⟩
        rw [needs, if_neg hr]
        exact Nat.lt_of_lt_of_le hlt (Nat.mul_le_mul_right _ (Nat.le_add_left _ _))
      · cases hnone
    · next r₁ s₁ hsome =>
      split at hsome
      · cases hsome
      · next hle =>
        cases hsome
        refine hconvert (i := 0) hr rfl ⟨?_, ?_, ?_, ?_⟩ (by simp [position]) (Nat.add_pos_left one_pos _) h
        · simp [frameAt]
        · simp [frameAt]
        · simp
        · simpa using hle
  | holds hr hl hat hpos hfrac =>
    rw [run, if_neg hr, load, hl, if_pos rfl] at h
    exact hconvert hr hl hat hpos hfrac h

/-- What a conversion has taken of the source: two frames ahead of its place at the most, and less than a step behind. -/
theorem Stands.taken {r : Resampler} {rest : List Int} (hs : Stands source device samples r rest n) :
    ∃ taken, rest = samples.drop (taken * source.channels) ∧ taken * source.channels ≤ samples.length ∧
      taken * one ≤ position source device n + 2 * one ∧ position source device n < taken * one + stepOf source device := by
  have hstep := stepOf_pos source device
  cases hs with
  | copies hr hn =>
    have hone : stepOf source device = one := by
      rw [stepOf, hr, Nat.mul_div_cancel_left _ (Nat.lt_of_lt_of_le (by decide) device.rate_ok.1)]
    refine ⟨n, rfl, hn, ?_, ?_⟩ <;> rw [position, hone] <;> have := one_pos <;> omega
  | waits hr hl =>
    refine ⟨0, by simp, by simp, by simp, ?_⟩
    rw [position]
    omega
  | @holds _ _ i hr hl hat hpos hfrac =>
    refine ⟨i + 2, hat.rest, hat.whole, ?_, ?_⟩ <;> rw [← hpos, Nat.add_mul]
    · omega
    · omega

/-! ## Every way of cutting -/

theorem needs_of_ne (hr : source.rate ≠ device.rate) (j : Nat) : needs source device j = position source device j / one + 2 :=
  if_neg hr

/-- What is pushed later does not change what was due before. -/
theorem outputAt_append {j : Nat} (h : needs source device j * source.channels ≤ samples.length) (more : List Int) :
    outputAt source device (samples ++ more) j = outputAt source device samples j := by
  rw [outputAt, outputAt, soundAt, soundAt]
  by_cases hr : source.rate = device.rate
  · rw [needs, if_pos hr] at h
    rw [if_pos hr, if_pos hr, frameAt_append h]
  · rw [needs_of_ne hr] at h
    rw [if_neg hr, if_neg hr, frameAt_append h, frameAt_append (Nat.le_trans (Nat.mul_le_mul_right _ (by omega)) h)]

structure Kept (source device : Format) (samples : List Int) (s : Stream) : Prop where
  stands : Stands source device samples s.resampler s.source s.out.length
  due : s.out = (List.range s.out.length).map (outputAt source device samples)
  met : ∀ j < s.out.length, needs source device j * source.channels ≤ samples.length

theorem stands_new (samples : List Int) : Stands source device samples new samples 0 := by
  by_cases hr : source.rate = device.rate
  · have hall := Stands.copies (r := new) (n := 0) hr (show 0 * source.channels ≤ samples.length by simp)
    rwa [Nat.zero_mul, List.drop_zero] at hall
  · exact .waits hr rfl

theorem kept_after {s : Stream} (hk : Kept source device samples s) (op : Op) :
    Kept source device (samples ++ op.pushed) (s.after source device op) := by
  cases op with
  | push more =>
    refine ⟨hk.stands.append more, hk.due.trans ?_, fun j hj => Nat.le_trans (hk.met j hj) (by simp)⟩
    exact List.map_congr_left fun j hj => (outputAt_append (hk.met j (List.mem_range.1 hj)) more).symm
  | pull frames =>
    rw [Op.pushed, List.append_nil]
    obtain ⟨hstands, hfills⟩ := run_stands hk.stands (rfl : run s.resampler s.source source device frames = _)
    simp only [Stream.after]
    generalize run s.resampler s.source source device frames = ran at hstands hfills ⊢
    constructor <;> dsimp only
    · rwa [List.length_append]
    · rw [List.length_append, List.range_add, List.map_append, List.map_map, ← hk.due]
      exact congrArg (s.out ++ ·) hfills.due
    · intro j hj
      rw [List.length_append] at hj
      by_cases hlt : j < s.out.length
      · exact hk.met j hlt
      · obtain ⟨t, rfl⟩ := Nat.exists_eq_add_of_le (Nat.not_lt.1 hlt)
        exact hfills.met t (by omega)

theorem played_kept (source device : Format) (ops : List Op) :
    Kept source device (pushed ops) (played source device ops) := by
  have go : ∀ (ops : List Op) {samples : List Int} {s : Stream}, Kept source device samples s →
      Kept source device (samples ++ pushed ops) (ops.foldl (Stream.after source device) s) := by
    intro ops
    induction ops with
    | nil =>
      intro samples s hk
      rwa [pushed, List.flatMap_nil, List.append_nil]
    | cons op ops ih =>
      intro samples s hk
      rw [pushed, List.flatMap_cons, ← List.append_assoc]
      exact ih (kept_after hk op)
  have hstart : Kept source device [] ⟨new, [], []⟩ := ⟨stands_new [], rfl, nofun⟩
  exact go ops hstart

/-- A pull of frames whose source is all there fills them all. -/
theorem run_all (samples : List Int) (h : ∀ j < n, needs source device j * source.channels ≤ samples.length) :
    (run new samples source device n).filled = (List.range n).map (outputAt source device samples) := by
  obtain ⟨-, hdue, -, hmost, hshort⟩ := run_stands (stands_new samples) (rfl : run new samples source device n = _)
  generalize (run new samples source device n).filled = filled at hdue hmost hshort ⊢
  have hlen : filled.length = n := by
    refine Nat.le_antisymm hmost (Nat.not_lt.1 fun hlt => ?_)
    have hend := hshort hlt
    rw [Nat.zero_add] at hend
    exact absurd (h _ hlt) (Nat.not_le.2 hend)
  rw [hlen] at hdue
  simpa using hdue

/-! ## Between two samples -/

def Between (a b x : Int) : Prop := min a b ≤ x ∧ x ≤ max a b

/-- A part of the way from `a` to `b`, rounded down, is between them. -/
theorem between_shift (a b : Int) {t : Nat} (ht : t < one) : Between a b (a + ((b - a) * (t : Int)) >>> (32 : Nat)) := by
  have ht' : (t : Int) < 4294967296 := by
    unfold one at ht
    omega
  rw [Int.shiftRight_eq_div_pow]
  norm_num
  rcases Int.le_total a b with hab | hab
  · have hlow : 0 ≤ (b - a) * (t : Int) / 4294967296 := Int.ediv_nonneg (Int.mul_nonneg (by omega) (by omega)) (by omega)
    have hhigh : (b - a) * (t : Int) / 4294967296 ≤ b - a := by
      refine Int.ediv_le_of_le_mul (by omega) ?_
      exact Int.mul_le_mul_of_nonneg_left (by omega) (by omega)
    constructor
    · rw [min_eq_left hab]
      omega
    · rw [max_eq_right hab]
      omega
  · have hhigh : (b - a) * (t : Int) / 4294967296 ≤ 0 := by
      refine Int.ediv_le_of_le_mul (by omega) ?_
      rw [Int.zero_mul]
      exact Int.mul_nonpos_of_nonpos_of_nonneg (by omega) (by omega)
    have hlow : b - a ≤ (b - a) * (t : Int) / 4294967296 := by
      refine (Int.le_ediv_iff_mul_le (by omega)).2 ?_
      exact Int.mul_le_mul_of_nonpos_left (by omega) (by omega)
    constructor
    · rw [min_eq_right hab]
      omega
    · rw [max_eq_left hab]
      omega

variable (source device) in
/-- The two frames of the source that the frame `j` of output is between. -/
def lower (j : Nat) : Nat := position source device j / one

variable (source device) in
/-- Frames of the same rate are taken as they are. -/
def upper (j : Nat) : Nat := if source.rate = device.rate then lower source device j else lower source device j + 1

theorem stepOf_same (hr : source.rate = device.rate) : stepOf source device = one := by
  rw [stepOf, hr, Nat.mul_div_cancel_left _ (Nat.lt_of_lt_of_le (by decide) device.rate_ok.1)]

theorem lower_same (hr : source.rate = device.rate) (j : Nat) : lower source device j = j := by
  rw [lower, position, stepOf_same hr, Nat.mul_div_cancel _ one_pos]

theorem needs_eq (source device : Format) (j : Nat) : needs source device j = upper source device j + 1 := by
  rw [needs, upper]
  split
  · next hr => rw [lower_same hr]
  · rfl

theorem getD_zipWith {f : Int → Int → Int} {a b : List Int} {c : Nat} (ha : c < a.length) (hb : c < b.length) :
    (List.zipWith f a b).getD c 0 = f (a.getD c 0) (b.getD c 0) := by
  simp [List.getD_eq_getElem?_getD, ha, hb]

theorem soundAt_between {j : Nat} (h : needs source device j * source.channels ≤ samples.length) :
    (soundAt source device samples j).length = source.channels ∧ ∀ c < source.channels,
      Between (samples.getD (lower source device j * source.channels + c) 0)
        (samples.getD (upper source device j * source.channels + c) 0) ((soundAt source device samples j).getD c 0) := by
  rw [soundAt]
  by_cases hr : source.rate = device.rate
  · rw [needs, if_pos hr] at h
    rw [if_pos hr, upper, if_pos hr, lower_same hr]
    refine ⟨length_frameAt h, fun c hc => ?_⟩
    rw [getD_frameAt hc]
    exact ⟨min_le_left _ _, le_max_left _ _⟩
  · rw [needs_of_ne hr] at h
    have ha : (frameAt source.channels samples (lower source device j)).length = source.channels :=
      length_frameAt (Nat.le_trans (Nat.mul_le_mul_right _ (Nat.le_succ _)) h)
    have hb : (frameAt source.channels samples (lower source device j + 1)).length = source.channels := length_frameAt h
    rw [if_neg hr, upper, if_neg hr, between, ← lower]
    refine ⟨by rw [List.length_zipWith, ha, hb, Nat.min_self], fun c hc => ?_⟩
    rw [getD_zipWith (ha.symm ▸ hc) (hb.symm ▸ hc), getD_frameAt hc, getD_frameAt hc]
    exact between_shift _ _ (Nat.mod_lt _ one_pos)

/-- The rates say how much of the source is due, less what dividing for the step leaves. -/
theorem position_rates (source device : Format) (n : Nat) :
    n * (source.rate * one) = position source device n * device.rate + n * (source.rate * one % device.rate) := by
  have hdiv := Nat.div_add_mod' (source.rate * one) device.rate
  rw [position, stepOf]
  calc n * (source.rate * one)
      = n * (source.rate * one / device.rate * device.rate + source.rate * one % device.rate) := by rw [hdiv]
    _ = n * (source.rate * one / device.rate) * device.rate + n * (source.rate * one % device.rate) := by ring

/-- However the source is cut into pushes and the output into pulls, the frames filled are those of one push and one
pull, each sample of which is between the two of the source about it until the channels are mapped; and what is taken of
the source is two frames more than the rates say at the most, and less by a step and by what dividing for it left. -/
theorem converted (source device : Format) (ops : List Op) :
    let s := played source device ops
    let n := s.out.length
    s.out = (run new (pushed ops) source device n).filled ∧
      (∀ j < n, ∃ f, s.out[j]? = some (mapChannels f device.channels) ∧ f.length = source.channels ∧
        (upper source device j + 1) * source.channels ≤ (pushed ops).length ∧ ∀ c < source.channels,
          Between ((pushed ops).getD (lower source device j * source.channels + c) 0)
            ((pushed ops).getD (upper source device j * source.channels + c) 0) (f.getD c 0)) ∧
      ∃ taken, s.source = (pushed ops).drop (taken * source.channels) ∧ taken * source.channels ≤ (pushed ops).length ∧
        taken * device.rate ≤ n * source.rate + 2 * device.rate ∧
        n * (source.rate * one) <
          (taken * one + stepOf source device) * device.rate + n * (source.rate * one % device.rate) := by
  dsimp only
  have hk := played_kept source device ops
  generalize played source device ops = s at hk ⊢
  refine ⟨?_, fun j hj => ?_, ?_⟩
  · rw [run_all _ hk.met]
    exact hk.due
  · have hmet := hk.met j hj
    obtain ⟨hlen, hbetween⟩ := soundAt_between hmet
    refine ⟨soundAt source device (pushed ops) j, ?_, hlen, needs_eq source device j ▸ hmet, hbetween⟩
    rw [hk.due, List.getElem?_map, List.getElem?_range hj]
    rfl
  · obtain ⟨taken, hrest, hle, hahead, hbehind⟩ := hk.stands.taken
    have hrates := position_rates source device s.out.length
    refine ⟨taken, hrest, hle, ?_, ?_⟩
    · refine Nat.le_of_mul_le_mul_right (c := one) ?_ one_pos
      have hmul := Nat.mul_le_mul_right device.rate hahead
      calc taken * device.rate * one = taken * one * device.rate := by ring
        _ ≤ (position source device s.out.length + 2 * one) * device.rate := hmul
        _ = position source device s.out.length * device.rate + 2 * one * device.rate := by ring
        _ ≤ s.out.length * (source.rate * one) + 2 * one * device.rate := by omega
        _ = (s.out.length * source.rate + 2 * device.rate) * one := by ring
    · rw [hrates]
      have hrate : 0 < device.rate := Nat.lt_of_lt_of_le (by decide) device.rate_ok.1
      exact Nat.add_lt_add_right (Nat.mul_lt_mul_of_pos_right hbehind hrate) _

/-! ## The rates of a disc and of a device -/

def disc : Format := ⟨44100, 1, by decide, by decide⟩

def dat : Format := ⟨48000, 1, by decide, by decide⟩

theorem position_le (j : Nat) : position disc dat j = j * 3946001203 := by
  rw [position, show stepOf disc dat = 3946001203 by decide]

theorem needs_le (n j : Nat) (hj : j < n) : needs disc dat j * disc.channels ≤ n + 2 := by
  have hplace : position disc dat j / one ≤ j := by
    rw [position_le]
    refine Nat.div_le_of_le_mul ?_
    unfold one
    omega
  rw [needs_of_ne (by decide), show disc.channels = 1 from rfl]
  omega

/-- One push of silence and one pull, and what is taken of it. -/
theorem taken_disc (n : Nat) : ∃ ops, (played disc dat ops).out.length = n ∧
    ((pushed ops).length - (played disc dat ops).source.length) * one ≤ n * 3946001203 + 2 * one := by
  have hlen : (List.replicate (n + 2) (0 : Int)).length = n + 2 := List.length_replicate
  generalize List.replicate (n + 2) (0 : Int) = samples at hlen
  have hfilled := @run_all disc dat n samples (hlen.symm ▸ needs_le n)
  have hout : (played disc dat [.push samples, .pull n]).out.length = n := by
    show ([] ++ (run new ([] ++ samples) disc dat n).filled).length = n
    rw [List.nil_append, List.nil_append, hfilled, List.length_map, List.length_range]
  have hpushed : pushed [.push samples, .pull n] = samples := by simp [pushed, Op.pushed]
  obtain ⟨taken, hrest, hle, hahead, -⟩ := (played_kept disc dat [.push samples, .pull n]).stands.taken
  refine ⟨[.push samples, .pull n], hout, ?_⟩
  rw [hout, position_le] at hahead
  rw [hpushed] at hrest hle
  rw [hpushed, hrest, List.length_drop, Nat.sub_sub_self hle, show disc.channels = 1 from rfl, Nat.mul_one]
  exact hahead

/-- What is taken falls behind the rates without a bound; and a channel that the source does not have is silent. -/
theorem converted_drifts :
    (¬∃ bound : Nat, ∀ ops, (played disc dat ops).out.length * 44100 ≤
      ((pushed ops).length - (played disc dat ops).source.length + bound) * 48000) ∧
    (played ⟨44100, 2, by decide, by decide⟩ ⟨44100, 4, by decide, by decide⟩ [.push [10, 10], .pull 1]).out = [[10, 10, 0, 0]] := by
  refine ⟨?_, by decide⟩
  rintro ⟨bound, h⟩
  obtain ⟨ops, hout, htaken⟩ := taken_disc (5 * 4294967296 * (bound + 4))
  have hbound := h ops
  rw [hout] at hbound
  generalize (pushed ops).length - (played disc dat ops).source.length = taken at htaken hbound
  unfold one at htaken
  omega

end Vento.Audio.Resampler
