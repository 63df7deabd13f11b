import Vento.Audio.Rhythm
import Vento.Lib.Raster
/-!
# A stream's bytes

`Stream::write_bytes` of `runtime/src/media/audio/mod.rs`. The bytes of a stream come cut anywhere, and the queue is
handed whole frames: a part of one that is left at the end is kept for the next write.

`Carries` says how the bytes so far are divided between what was handed on and what is kept, and that says both how
much of them it is (`Carries.handed_eq`), however they were cut.
-/

namespace Vento.Audio

open Vento.Lib

def maxChannels : Nat := 8

/-- Bytes in one frame, a sample of every channel. -/
def Format.frameBytes (f : Format) : Nat := f.channels * 2

structure Stream where
  format : Format
  /-- The start of a frame whose end has not arrived. -/
  part : List UInt8
  partLen : Nat
  playing : Bool
  /-- The bytes of each write to the queue. -/
  handed : List (List UInt8)
deriving DecidableEq, Repr

namespace Stream

def new (format : Format) : Stream := ⟨format, List.replicate (maxChannels * 2) 0, 0, false, []⟩

def started (s : Stream) : Stream := { s with playing := true }

/-- The queue's `write_bytes`. -/
def hand (s : Stream) (bytes : List UInt8) : Stream := { s with handed := s.handed ++ [bytes] }

/-- Finishes the part that is kept, if there is one. What is left of the bytes, unless they did not finish it. -/
def finishPart (s : Stream) (bytes : List UInt8) : Option (Stream × Option (List UInt8)) :=
  let frame := s.format.frameBytes
  if s.partLen = 0 then some (s, some bytes)
  else if frame < s.partLen then none
  else do
    let take := min (frame - s.partLen) bytes.length
    let part ← copyFromSlice s.part s.partLen (s.partLen + take) (bytes.take take)
    let s := { s with part := part, partLen := s.partLen + take }
    if s.partLen < frame then some (s, none)
    else
      let whole ← slice s.part 0 frame
      some ({ s.hand whole with partLen := 0 }, some (bytes.drop take))

/-- Whole frames of the bytes, and the rest kept. -/
def wholeFrames (s : Stream) (bytes : List UInt8) : Option Stream := do
  let whole := bytes.length / s.format.frameBytes * s.format.frameBytes
  let rest := bytes.drop whole
  let part ← copyFromSlice s.part 0 rest.length rest
  some { s.hand (bytes.take whole) with part := part, partLen := rest.length }

def writeBytes (s : Stream) (bytes : List UInt8) : Option Stream :=
  if bytes = [] then some s
  else do
    let (s, rest) ← s.started.finishPart bytes
    match rest with
    | none => some s
    | some bytes => s.wholeFrames bytes

/-- A sample, from its two bytes in the machine's order. -/
def sample (little : Bool) (a b : UInt8) : Int :=
  let v := if little then a.toNat + 256 * b.toNat else b.toNat + 256 * a.toNat
  if v < 2 ^ 15 then v else v - 2 ^ 16

def samples (little : Bool) : List UInt8 → List Int
  | a :: b :: bs => sample little a b :: samples little bs
  | _ => []

/-- The samples that the queue was handed. -/
def handedSamples (s : Stream) (little : Bool) : List Int := s.handed.flatMap (samples little)

/-! ## Nothing is lost or doubled -/

/-- The bytes so far are what was handed on, in whole frames, and less than a frame that is kept. -/
structure Carries (s : Stream) (all : List UInt8) : Prop where
  size : s.part.length = maxChannels * 2
  less : s.partLen < s.format.frameBytes
  whole : ∀ bytes ∈ s.handed, s.format.frameBytes ∣ bytes.length
  bytes : s.handed.flatten ++ s.part.take s.partLen = all

theorem frameBytes_pos (f : Format) : 0 < f.frameBytes := by
  have h := f.channels_ok
  unfold Format.frameBytes
  omega

theorem frameBytes_le (f : Format) : f.frameBytes ≤ maxChannels * 2 := by
  have h := f.channels_ok
  unfold Format.frameBytes maxChannels
  omega

theorem carries_new (f : Format) : Carries (new f) [] where
  size := by simp [new]
  less := frameBytes_pos f
  whole _ h := by cases h
  bytes := rfl

variable {s : Stream} {all : List UInt8}

theorem dvd_length_flatten {n : Nat} {ls : List (List UInt8)} (h : ∀ l ∈ ls, n ∣ l.length) : n ∣ ls.flatten.length := by
  induction ls with
  | nil => simp
  | cons l ls ih =>
    rw [List.flatten_cons, List.length_append]
    exact Nat.dvd_add (h l List.mem_cons_self) (ih fun l' hl' => h l' (List.mem_cons_of_mem l hl'))

theorem samples_append (little : Bool) {l : List UInt8} (h : 2 ∣ l.length) (l' : List UInt8) :
    samples little (l ++ l') = samples little l ++ samples little l' := by
  induction l using samples.induct with
  | case1 a b bs ih =>
    rw [List.cons_append, List.cons_append, samples, samples, List.cons_append, ih]
    simp only [List.length_cons] at h
    omega
  | case2 l hl =>
    match l with
    | [] => rfl
    | [a] => simp at h
    | a :: b :: bs => exact absurd rfl (hl a b bs)

/-- Whole frames are whole samples. -/
theorem Carries.samples_eq (h : Carries s all) (little : Bool) : s.handedSamples little = samples little s.handed.flatten := by
  have heven : ∀ bytes ∈ s.handed, 2 ∣ bytes.length := fun bytes hb =>
    Nat.dvd_trans (Nat.dvd_mul_left 2 s.format.channels) (h.whole bytes hb)
  unfold handedSamples
  generalize s.handed = ls at heven
  induction ls with
  | nil => rfl
  | cons l ls ih =>
    rw [List.flatMap_cons, List.flatten_cons, samples_append little (heven l List.mem_cons_self),
      ih fun l' hl' => heven l' (List.mem_cons_of_mem l hl')]

/-- What was handed on is all the whole frames that there are. -/
theorem Carries.handed_eq (h : Carries s all) :
    s.handed.flatten = all.take (all.length / s.format.frameBytes * s.format.frameBytes) := by
  have hpart : (s.part.take s.partLen).length = s.partLen := by
    have hle := frameBytes_le s.format
    have hless := h.less
    have hsize := h.size
    rw [List.length_take]
    omega
  obtain ⟨k, hk⟩ := dvd_length_flatten h.whole
  have hlen : all.length = s.partLen + s.format.frameBytes * k := by
    rw [← h.bytes, List.length_append, hpart, hk, Nat.add_comm]
  have hdiv : all.length / s.format.frameBytes = k := by
    rw [hlen, Nat.add_mul_div_left _ _ (frameBytes_pos s.format), Nat.div_eq_of_lt h.less, Nat.zero_add]
  rw [hdiv, Nat.mul_comm, ← hk, ← h.bytes, List.take_left]

/-- With nothing kept, all the bytes are divided. -/
theorem wholeFrames_carries (h : Carries s all) (hnone : s.partLen = 0) (bytes : List UInt8) :
    ∃ s', s.wholeFrames bytes = some s' ∧ s'.format = s.format ∧ Carries s' (all ++ bytes) := by
  have hpos := frameBytes_pos s.format
  have hle := frameBytes_le s.format
  have hdiv := Nat.div_add_mod bytes.length s.format.frameBytes
  have hmod := Nat.mod_lt bytes.length hpos
  rw [Nat.mul_comm] at hdiv
  have hrest : (bytes.drop (bytes.length / s.format.frameBytes * s.format.frameBytes)).length < s.format.frameBytes := by
    rw [List.length_drop]
    omega
  have hsize := h.size
  generalize hwhole : bytes.length / s.format.frameBytes * s.format.frameBytes = whole at hdiv hrest
  generalize hdrop : bytes.drop whole = rest at hrest
  obtain ⟨part, hcopy⟩ : ∃ part, copyFromSlice s.part 0 rest.length rest = some part :=
    ⟨_, copyFromSlice_eq_some.2 ⟨Nat.zero_le _, by omega, rfl, rfl⟩⟩
  obtain ⟨-, -, -, hpart⟩ := copyFromSlice_eq_some.1 hcopy
  refine ⟨{ s.hand (bytes.take whole) with part := part, partLen := rest.length }, ?_, rfl, ?_⟩
  · unfold wholeFrames
    dsimp only
    rw [hwhole, hdrop, hcopy]
    rfl
  · refine ⟨(copyFromSlice_length hcopy).trans h.size, hrest, ?_, ?_⟩
    · intro b hb
      rcases List.mem_append.1 (show b ∈ s.handed ++ [bytes.take whole] from hb) with hb | hb
      · exact h.whole b hb
      · rw [List.mem_singleton.1 hb, List.length_take, ← hwhole, Nat.min_eq_left (by omega)]
        exact Nat.dvd_mul_left _ _
    · have hall := h.bytes
      rw [hnone, List.take_zero, List.append_nil] at hall
      show (s.handed ++ [bytes.take whole]).flatten ++ part.take rest.length = all ++ bytes
      rw [List.flatten_append, hall, List.flatten_singleton, hpart, List.take_zero, List.nil_append, List.take_left, List.append_assoc,
        ← hdrop, List.take_append_drop]

/-- The part that is kept is finished, or all the bytes are kept with it. -/
theorem finishPart_carries (h : Carries s all) (bytes : List UInt8) :
    ∃ s' rest, s.finishPart bytes = some (s', rest) ∧ s'.format = s.format ∧
      match rest with
      | none => Carries s' (all ++ bytes)
      | some b => s'.partLen = 0 ∧ ∃ all', Carries s' all' ∧ all' ++ b = all ++ bytes := by
  have hle := frameBytes_le s.format
  have hless := h.less
  have hsize := h.size
  by_cases hnone : s.partLen = 0
  · refine ⟨s, some bytes, ?_, rfl, hnone, all, h, rfl⟩
    unfold finishPart
    rw [if_pos hnone]
  · generalize htake : min (s.format.frameBytes - s.partLen) bytes.length = take
    have hlen : (bytes.take take).length = take := by
      rw [List.length_take]
      omega
    obtain ⟨part, hcopy⟩ : ∃ part, copyFromSlice s.part s.partLen (s.partLen + take) (bytes.take take) = some part :=
      ⟨_, copyFromSlice_eq_some.2 ⟨by omega, by omega, by omega, rfl⟩⟩
    obtain ⟨-, -, -, hpart⟩ := copyFromSlice_eq_some.1 hcopy
    have hbefore : (s.part.take s.partLen).length = s.partLen := by
      rw [List.length_take]
      omega
    -- What is kept now is what was, with the bytes taken.
    have hkept : part.take (s.partLen + take) = s.part.take s.partLen ++ bytes.take take := by
      rw [hpart]
      apply List.take_left'
      rw [List.length_append, hbefore, hlen]
    have hsize' := (copyFromSlice_length hcopy).trans h.size
    by_cases hshort : s.partLen + take < s.format.frameBytes
    · refine ⟨{ s with part := part, partLen := s.partLen + take }, none, ?_, rfl, ?_⟩
      · unfold finishPart
        dsimp only
        rw [if_neg hnone, if_neg (by omega), htake, hcopy]
        simp only [Option.bind_eq_bind, Option.bind_some]
        rw [if_pos hshort]
      · have hbytes : bytes.take take = bytes := List.take_of_length_le (by omega)
        refine ⟨hsize', hshort, h.whole, ?_⟩
        dsimp only
        rw [hkept, hbytes, ← h.bytes, List.append_assoc]
    · have hfull : s.partLen + take = s.format.frameBytes := by omega
      have hslice : slice part 0 s.format.frameBytes = some (part.take s.format.frameBytes) :=
        slice_eq_some.2 ⟨Nat.zero_le _, by omega, rfl⟩
      refine ⟨{ s with part := part, partLen := 0, handed := s.handed ++ [part.take s.format.frameBytes] }, some (bytes.drop take),
        ?_, rfl, rfl, all ++ bytes.take take, ?_, ?_⟩
      · unfold finishPart
        dsimp only
        rw [if_neg hnone, if_neg (by omega), htake, hcopy]
        simp only [Option.bind_eq_bind, Option.bind_some]
        rw [if_neg hshort, hslice]
        rfl
      · refine ⟨hsize', frameBytes_pos s.format, ?_, ?_⟩
        · intro b hb
          rcases List.mem_append.1 hb with hb | hb
          · exact h.whole b hb
          · rw [List.mem_singleton.1 hb, List.length_take, Nat.min_eq_left (by omega)]
        · dsimp only
          rw [List.flatten_append, List.flatten_singleton, ← hfull, hkept, List.take_zero, List.append_nil, ← h.bytes, List.append_assoc]
      · rw [List.append_assoc, List.take_append_drop]

theorem writeBytes_carries (h : Carries s all) (bytes : List UInt8) :
    ∃ s', s.writeBytes bytes = some s' ∧ s'.format = s.format ∧ Carries s' (all ++ bytes) := by
  unfold writeBytes
  split
  · next hempty =>
    rw [hempty, List.append_nil]
    exact ⟨s, rfl, rfl, h⟩
  · have hstarted : Carries s.started all := ⟨h.size, h.less, h.whole, h.bytes⟩
    obtain ⟨s', rest, hfinish, hformat, hrest⟩ := finishPart_carries hstarted bytes
    rw [hfinish]
    cases rest with
    | none => exact ⟨s', rfl, hformat, hrest⟩
    | some b =>
      obtain ⟨hnone, all', hcarries, hall⟩ := hrest
      obtain ⟨s'', hwhole, hformat', hcarries'⟩ := wholeFrames_carries hcarries hnone b
      exact ⟨s'', hwhole, hformat'.trans hformat, hall ▸ hcarries'⟩

theorem foldlM_carries (h : Carries s all) (cuts : List (List UInt8)) :
    ∃ s', cuts.foldlM writeBytes s = some s' ∧ s'.format = s.format ∧ Carries s' (all ++ cuts.flatten) := by
  induction cuts generalizing s all with
  | nil => exact ⟨s, rfl, rfl, by rw [List.flatten_nil, List.append_nil]; exact h⟩
  | cons bytes cuts ih =>
    obtain ⟨s', hs', hformat, h'⟩ := writeBytes_carries h bytes
    obtain ⟨s'', hs'', hformat', h''⟩ := ih h'
    refine ⟨s'', ?_, hformat'.trans hformat, ?_⟩
    · rw [List.foldlM_cons, hs']
      exact hs''
    · rw [List.flatten_cons, ← List.append_assoc]
      exact h''

/-- However a stream's bytes are cut, the queue is handed the same samples, in whole frames, and less than a frame is
kept: the bytes that make no whole one yet. -/
theorem writeBytes_cut (format : Format) (cuts : List (List UInt8)) :
    ∃ s s₁, cuts.foldlM writeBytes (new format) = some s ∧ writeBytes (new format) cuts.flatten = some s₁ ∧
      (∀ little, s.handedSamples little = s₁.handedSamples little) ∧
      s.handed.flatten = cuts.flatten.take (cuts.flatten.length / format.frameBytes * format.frameBytes) ∧
      (∀ bytes ∈ s.handed, format.frameBytes ∣ bytes.length) ∧
      s.partLen < format.frameBytes ∧
      s.part.take s.partLen = cuts.flatten.drop (cuts.flatten.length / format.frameBytes * format.frameBytes) := by
  obtain ⟨s, hs, hformat, h⟩ := foldlM_carries (carries_new format) cuts
  obtain ⟨s₁, hs₁, hformat₁, h₁⟩ := writeBytes_carries (carries_new format) cuts.flatten
  have hf : s.format = format := hformat
  have hf₁ : s₁.format = format := hformat₁
  rw [List.nil_append] at h h₁
  have heq := h.handed_eq
  have heq₁ := h₁.handed_eq
  rw [hf] at heq
  rw [hf₁] at heq₁
  refine ⟨s, s₁, hs, hs₁, fun little => ?_, heq, hf ▸ h.whole, hf ▸ h.less, ?_⟩
  · rw [h.samples_eq, h₁.samples_eq, heq, heq₁]
  · have hbytes := h.bytes
    rw [heq] at hbytes
    exact List.append_cancel_left (hbytes.trans (List.take_append_drop _ _).symm)

end Stream

end Vento.Audio
