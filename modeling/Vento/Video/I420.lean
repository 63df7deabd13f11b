import Mathlib.Algebra.Ring.Nat
import Mathlib.Data.List.Basic
import Vento.Video.Incremental
/-!
# Copies of a frame's planes, and which frames are safe to read

`media/video/i420.rs`, which copies a picture for a caller that converts it itself, and
`planes` of `modules/ironrdp/src/pipeline.rs`, which copies it for a library that does. Both
take 4:2:0 only, and both walk a row with `step_by`, which panics on a step of zero.

`safe_to_read_iff`: which of the frames that `fits` accepts every reader can read.
-/

namespace Vento.Video

open Lib (loop Buffer)

/-- Y at full size and U and V at half. -/
def Frame.is420 (f : Frame) : Bool :=
  (f.planes 0).horizSubsampling = 1 ∧ (f.planes 0).vertSubsampling = 1 ∧
    ∀ i : Fin 3, i ≠ 0 → (f.planes i).horizSubsampling = 2 ∧ (f.planes i).vertSubsampling = 2

/-- A plane's size in samples, of a 4:2:0 picture. -/
def Frame.planeSize (f : Frame) (i : Fin 3) : Nat × Nat :=
  if i = 0 then (f.width, f.height) else ((f.width + 1) / 2, (f.height + 1) / 2)

/-- The first `w` samples of a plane's row, fewer where the bytes end first. -/
def Frame.samples (f : Frame) (i : Fin 3) (row w : Nat) : Option (List UInt8) := do
  let src ← (f.bytes i).from? ((f.planes i).offset + row * (f.planes i).rowInc)
  let inc := (f.planes i).colInc
  if inc = 1 then
    if src.len < w then none else some ((List.range w).map fun k => f.mem (src.ptr + k))
  else if inc = 0 then none
  else some ((List.range (min w ((src.len + inc - 1) / inc))).map fun k => f.mem (src.ptr + k * inc))

/-! ## I420 -/

def margin : Nat := 32

namespace I420

/-- One plane: its own memory, from `at_` on, which is where its first row is aligned. -/
structure Plane where
  buf : Buffer UInt8
  at_ : Nat
  stride : Nat

/-- Room for `width` by `height` samples and the margin; `aligned` is where a new allocation
is aligned. -/
def Plane.fit (p : Plane) (aligned width height : Nat) : Plane :=
  let stride := (width + margin + 63) / 64 * 64
  let len := stride * (height + margin) + 64
  if p.stride ≠ stride ∨ p.buf.len < len then ⟨⟨len, fun _ => 0⟩, aligned, stride⟩ else p

/-- One row into a plane. -/
def Plane.copyRow (f : Frame) (i : Fin 3) (w row : Nat) (p : Plane) : Option Plane :=
  let k := p.at_ + row * p.stride
  if p.buf.len < k + w then none
  else do
    let samples ← f.samples i row w
    some { p with buf := p.buf.put k samples }

def Plane.copy (f : Frame) (i : Fin 3) (aligned : Nat) (p : Plane) : Option Plane :=
  let (w, h) := f.planeSize i
  loop (Plane.copyRow f i w) 0 h (p.fit aligned w h)

end I420

/-- The last picture that was copied. -/
structure I420 where
  planes : Fin 3 → I420.Plane
  width : Nat
  height : Nat

/-- `frame` into the planes, false with the planes as they were. -/
def I420.copy (s : I420) (aligned : Fin 3 → Nat) (f : Frame) : Option (Bool × I420) :=
  if f.fits = false ∨ f.is420 = false then some (false, s)
  else do
    let y ← (s.planes 0).copy f 0 (aligned 0)
    let u ← (s.planes 1).copy f 1 (aligned 1)
    let v ← (s.planes 2).copy f 2 (aligned 2)
    some (true, ⟨fun i => match i with | 0 => y | 1 => u | 2 => v, f.width, f.height⟩)

/-! ## The library's planes -/

namespace Pipeline

/-- What the library's picture is made of. -/
structure Yuv420 where
  width : Nat
  height : Nat
  y : List UInt8
  yStride : Nat
  u : List UInt8
  v : List UInt8
  uvStride : Nat
deriving DecidableEq, Repr

/-- A plane's rows one after another. -/
def copyRows (f : Frame) (i : Fin 3) : Option (List UInt8) :=
  let (w, h) := f.planeSize i
  loop (fun row out => (f.samples i row w).map (out ++ ·)) 0 h []

/-- A decoded picture's planes copied into the library's. -/
def planes (f : Frame) : Option (Except String Yuv420) :=
  if 0xffff < f.width ∨ 0xffff < f.height then some (.error "the picture is larger than 65535 pixels a side")
  else if f.fits = false ∨ f.is420 = false then
    some (.error "the decoder's picture is not 4:2:0 in the bytes it came in")
  else do
    let y ← copyRows f 0
    let u ← copyRows f 1
    let v ← copyRows f 2
    some (.ok ⟨f.width, f.height, y, f.width, u, v, (f.width + 1) / 2⟩)

end Pipeline

/-! ## Copies -/

section
variable {f : Frame} {i : Fin 3}

theorem Frame.is420_iff : f.is420 = true ↔ (f.planes 0).horizSubsampling = 1 ∧ (f.planes 0).vertSubsampling = 1 ∧
    ∀ i : Fin 3, i ≠ 0 → (f.planes i).horizSubsampling = 2 ∧ (f.planes i).vertSubsampling = 2 := by
  unfold Frame.is420
  rw [decide_eq_true_eq]

/-- The last sample `fits` checks is the last of the plane's own size. -/
theorem planeSize_spec (hf : f.fits = true) (h4 : f.is420 = true) (i : Fin 3) :
    0 < (f.planeSize i).1 ∧ 0 < (f.planeSize i).2 ∧
      (f.planes i).offset + ((f.planeSize i).2 - 1) * (f.planes i).rowInc + ((f.planeSize i).1 - 1) * (f.planes i).colInc <
        (f.bytes i).len := by
  obtain ⟨hw, hh, hall⟩ := Frame.fits_iff.mp hf
  obtain ⟨h0, v0, hc⟩ := Frame.is420_iff.mp h4
  have hl := (hall i).2.2
  unfold Frame.last at hl
  unfold Frame.planeSize
  by_cases hi : i = 0
  · subst hi
    rw [h0, v0, Nat.div_one, Nat.div_one] at hl
    simp only [if_true]
    exact ⟨by omega, by omega, hl⟩
  · obtain ⟨h2, v2⟩ := hc i hi
    rw [h2, v2] at hl
    simp only [hi, if_false]
    refine ⟨by omega, by omega, ?_⟩
    rw [show (f.height + 1) / 2 - 1 = (f.height - 1) / 2 by omega, show (f.width + 1) / 2 - 1 = (f.width - 1) / 2 by omega]
    exact hl

/-- A row's samples, all of them, where the step is not zero. -/
theorem samples_eq (hf : f.fits = true) (h4 : f.is420 = true) (hi : (f.planes i).colInc ≠ 0) {row : Nat}
    (hr : row < (f.planeSize i).2) :
    f.samples i row (f.planeSize i).1 = some ((List.range (f.planeSize i).1).map (f.sampleAt i row)) := by
  obtain ⟨hw, -, hlast⟩ := planeSize_spec hf h4 i
  generalize (f.planeSize i).1 = w at *
  have hrow : row * (f.planes i).rowInc ≤ ((f.planeSize i).2 - 1) * (f.planes i).rowInc := Nat.mul_le_mul_right _ (by omega)
  have hle : (f.planes i).offset + row * (f.planes i).rowInc ≤ (f.bytes i).len := by omega
  have hmap : ∀ k, (f.bytes i).ptr + ((f.planes i).offset + row * (f.planes i).rowInc) + k * (f.planes i).colInc =
      (f.bytes i).ptr + ((f.planes i).offset + row * (f.planes i).rowInc + k * (f.planes i).colInc) := by
    intro k
    omega
  by_cases h1 : (f.planes i).colInc = 1
  · rw [h1, Nat.mul_one] at hlast
    have hlen : ¬ (f.bytes i).len - ((f.planes i).offset + row * (f.planes i).rowInc) < w := by omega
    simp only [Frame.samples, Slice.from?, if_pos hle, h1, if_true, hlen, if_false, Option.bind_eq_bind, Option.bind_some]
    congr 1
    apply List.map_congr_left
    intro k _
    unfold Frame.sampleAt
    rw [← hmap, h1, Nat.mul_one]
  · generalize hlen : (f.bytes i).len - ((f.planes i).offset + row * (f.planes i).rowInc) = len
    have hcount : w ≤ (len + (f.planes i).colInc - 1) / (f.planes i).colInc := by
      rw [Nat.le_div_iff_mul_le (Nat.pos_of_ne_zero hi)]
      have hsub : w * (f.planes i).colInc = (w - 1) * (f.planes i).colInc + (f.planes i).colInc := by
        rw [← Nat.succ_mul]
        congr 1
        omega
      omega
    simp only [Frame.samples, Slice.from?, if_pos hle, h1, if_false, hi, hlen, Nat.min_eq_left hcount, Option.bind_eq_bind,
      Option.bind_some]
    congr 1
    apply List.map_congr_left
    intro k _
    unfold Frame.sampleAt
    rw [← hmap]

theorem samples_none (hi : (f.planes i).colInc = 0) (row w : Nat) : f.samples i row w = none := by
  unfold Frame.samples
  cases (f.bytes i).from? ((f.planes i).offset + row * (f.planes i).rowInc) with
  | none => rfl
  | some src => simp [hi]

/-- A plane's samples are in its memory, row by row. -/
structure I420.Plane.Holds (p : I420.Plane) (f : Frame) (i : Fin 3) (rows : Nat) : Prop where
  samples : ∀ row < rows, ∀ col < (f.planeSize i).1, p.buf.get (p.at_ + row * p.stride + col) = f.sampleAt i row col

/-- An allocation is aligned within its first 64 bytes. -/
def I420.Plane.WellFormed (p : I420.Plane) : Prop := p.at_ < 64

theorem I420.Plane.fit_spec {p : I420.Plane} {aligned : Nat} (hp : p.WellFormed) (ha : aligned < 64) (w h : Nat) :
    (p.fit aligned w h).WellFormed ∧ w ≤ (p.fit aligned w h).stride ∧
      (p.fit aligned w h).stride * h + 64 ≤ (p.fit aligned w h).buf.len := by
  have hstride : w ≤ (w + margin + 63) / 64 * 64 := by
    unfold margin
    omega
  have hmul : (w + margin + 63) / 64 * 64 * h ≤ (w + margin + 63) / 64 * 64 * (h + margin) :=
    Nat.mul_le_mul_left _ (Nat.le_add_right _ _)
  unfold I420.Plane.fit
  dsimp only
  split
  · exact ⟨ha, hstride, Nat.add_le_add_right hmul 64⟩
  · rename_i hn
    have hs : p.stride = (w + margin + 63) / 64 * 64 := by omega
    refine ⟨hp, by omega, ?_⟩
    rw [hs]
    omega

/-- A plane copied: it goes through, and the plane has the frame's samples. -/
theorem I420.Plane.copy_spec {p : I420.Plane} {aligned : Nat} (hp : p.WellFormed) (ha : aligned < 64) (hf : f.fits = true)
    (h4 : f.is420 = true) (hi : (f.planes i).colInc ≠ 0) :
    ∃ p', p.copy f i aligned = some p' ∧ p'.WellFormed ∧ p'.Holds f i (f.planeSize i).2 := by
  obtain ⟨hwf, hstride, hlen⟩ := I420.Plane.fit_spec hp ha (f.planeSize i).1 (f.planeSize i).2
  generalize hq : p.fit aligned (f.planeSize i).1 (f.planeSize i).2 = q at *
  have hloop := Lib.loop_spec (f := I420.Plane.copyRow f i (f.planeSize i).1)
    (fun k r => r.at_ = q.at_ ∧ r.stride = q.stride ∧ r.buf.len = q.buf.len ∧ r.Holds f i k)
    (n := (f.planeSize i).2) (k := 0) (s := q)
    ⟨rfl, rfl, rfl, ⟨fun row hr => absurd hr (Nat.not_lt_zero row)⟩⟩
    (by
      rintro k r - hk ⟨h1, h2, h3, hh⟩
      have hsam := samples_eq hf h4 hi (show k < (f.planeSize i).2 by omega)
      have hk1 : (k + 1) * q.stride ≤ q.stride * (f.planeSize i).2 := by
        rw [Nat.mul_comm]
        exact Nat.mul_le_mul_left _ (by omega)
      rw [Nat.succ_mul] at hk1
      have hroom : ¬ r.buf.len < r.at_ + k * r.stride + (f.planeSize i).1 := by
        have : q.at_ < 64 := hwf
        rw [h1, h2, h3]
        omega
      refine ⟨{ r with buf := r.buf.put (r.at_ + k * r.stride) ((List.range (f.planeSize i).1).map (f.sampleAt i k)) }, ?_,
        h1, h2, h3, ⟨?_⟩⟩
      · simp [I420.Plane.copyRow, hroom, hsam]
      · intro row hrow col hcol
        show (r.buf.put (r.at_ + k * r.stride) ((List.range (f.planeSize i).1).map (f.sampleAt i k))).get
          (r.at_ + row * r.stride + col) = f.sampleAt i row col
        by_cases hrk : row = k
        · subst hrk
          rw [Lib.Buffer.put_get_inside _ _ _ (by simpa using hcol)]
          simp
        · have hlt : (row + 1) * r.stride ≤ k * r.stride := Nat.mul_le_mul_right _ (by omega)
          rw [Nat.succ_mul] at hlt
          rw [Lib.Buffer.put_get_outside _ _ (Or.inl (by omega))]
          exact hh.samples row (by omega) col hcol)
  rw [Nat.zero_add] at hloop
  obtain ⟨p', hp', h1, -, -, hh⟩ := hloop
  refine ⟨p', ?_, ?_, hh⟩
  · unfold I420.Plane.copy
    dsimp only
    rw [hq]
    exact hp'
  · show p'.at_ < 64
    rw [h1]
    exact hwf

theorem copyRows_spec (hf : f.fits = true) (h4 : f.is420 = true) (hi : (f.planes i).colInc ≠ 0) :
    ∃ rows, Pipeline.copyRows f i = some rows := by
  have hloop := Lib.loop_spec (f := fun row out => (f.samples i row (f.planeSize i).1).map (out ++ ·)) (fun _ _ => True)
    (n := (f.planeSize i).2) (k := 0) (s := []) trivial
    (by
      intro k s _ hk _
      exact ⟨_, by rw [samples_eq hf h4 hi (show k < (f.planeSize i).2 by omega)]; rfl, trivial⟩)
  obtain ⟨rows, hr, -⟩ := hloop
  exact ⟨rows, hr⟩

/-- A step of zero is a panic at a plane's first row. -/
theorem I420.Plane.copy_none {p : I420.Plane} (aligned : Nat) (hi : (f.planes i).colInc = 0) (hh : 0 < (f.planeSize i).2) :
    p.copy f i aligned = none := by
  unfold I420.Plane.copy
  dsimp only
  obtain ⟨n, hn⟩ := Nat.exists_eq_succ_of_ne_zero (Nat.ne_of_gt hh)
  have hrow : ∀ q : I420.Plane, I420.Plane.copyRow f i (f.planeSize i).1 0 q = none := by
    intro q
    unfold I420.Plane.copyRow
    dsimp only
    split
    · rfl
    · rw [samples_none hi]
      rfl
  rw [hn, Lib.loop, hrow]
  rfl

end

/-! ## Reading a frame -/

def I420.WellFormed (s : I420) : Prop := ∀ i, (s.planes i).WellFormed

/-- The planes are a frame's samples. -/
def I420.Holds (s : I420) (f : Frame) : Prop :=
  s.width = f.width ∧ s.height = f.height ∧ ∀ i, (s.planes i).Holds f i (f.planeSize i).2

/-- Each reader of a frame goes through, whatever it was left with by the calls before, and
is left ready for the next; and a copy is of the frame's samples, or is not made. -/
structure SafeToRead (f : Frame) : Prop where
  rows : ∀ row < f.height, ∃ planes, f.row row = some planes ∧ ∀ (arch : Arch) (out : List Nat),
    (rowScalar f.mem planes f.layout out 0 f.width f.coefficients).isSome ∧
      (rowVectorised arch f.mem planes f.layout out f.width f.coefficients).isSome
  compare : ∀ p : Previous, p.WellFormed → ∀ changed, ∃ p' changed', p.compare f changed = some (p', changed') ∧ p'.WellFormed
  write : ∀ (arch : Arch) (o : Output), o.previous.WellFormed → ∀ out width height changed, ∃ o' out' changed',
    o.write arch f out width height changed = some (o', out', changed') ∧ o'.previous.WellFormed
  planes : (Pipeline.planes f).isSome
  copy : ∀ s : I420, s.WellFormed → ∀ aligned, (∀ i, aligned i < 64) → ∃ copied s', s.copy aligned f = some (copied, s') ∧
    s'.WellFormed ∧ (copied = false → s' = s) ∧ (copied = true → s'.Holds f)

section
variable {f : Frame}

/-- A part of a frame is read where the whole of it is. -/
theorem Frame.Converts.crop (h : f.Converts) {width height : Nat} (hh : (f.crop width height).height ≠ 0) : (f.crop width height).Converts := by
  have hwle : (f.crop width height).width ≤ f.width := Nat.min_le_right _ _
  have hhle : (f.crop width height).height ≤ f.height := Nat.min_le_right _ _
  have hstart : ∀ i, f.start ((f.crop width height).height - 1) i ≤ f.start (f.height - 1) i :=
    fun i => Frame.start_le (by omega) i
  have hcol : ∀ {a b c : Nat}, a ≤ b → a * c ≤ b * c := fun h => Nat.mul_le_mul_right _ h
  refine ⟨?_, ?_⟩
  · exact Nat.lt_of_le_of_lt (Nat.add_le_add (hstart 0) (hcol (by omega))) h.luma
  · exact Nat.lt_of_le_of_lt (Nat.add_le_add (hstart 2) (hcol (Nat.div_le_div_right (by omega)))) h.v

theorem write_safe (hc : f.Converts) (arch : Arch) {o : Output} (ho : o.previous.WellFormed) (out : Buffer Nat)
    (width height : Nat) (changed : Changes) :
    ∃ o' out' changed', o.write arch f out width height changed = some (o', out', changed') ∧ o'.previous.WellFormed := by
  unfold Output.write
  dsimp only
  split
  · exact ⟨o, out, changed, rfl, ho⟩
  rename_i hz
  split
  · exact ⟨o, out, changed, rfl, ho⟩
  rename_i hfit
  have hf : (f.crop width height).fits = true := by simpa using hfit
  have hroom : width * (f.crop width height).height ≤ out.len :=
    Nat.le_trans (Nat.mul_le_mul_left _ (Nat.min_le_left _ _)) (by omega)
  obtain ⟨o', out', changed', hconv, hcmp, -⟩ :=
    convert_spec arch ho hf (hc.crop (by omega)) changed (Nat.min_le_left _ _) hroom
  obtain ⟨p', c', hcmp', hwf, -⟩ := compare_spec ho (f.crop width height) changed
  cases hcmp.symm.trans hcmp'
  exact ⟨o', out', changed', hconv, hwf⟩

theorem planes_safe (h : f.is420 = true → ∀ i, (f.planes i).colInc ≠ 0) : (Pipeline.planes f).isSome := by
  unfold Pipeline.planes
  split
  · rfl
  split
  · rfl
  rename_i hn
  have hf : f.fits = true := by
    by_contra hc
    exact hn (Or.inl (by simpa using hc))
  have h4 : f.is420 = true := by
    by_contra hc
    exact hn (Or.inr (by simpa using hc))
  obtain ⟨y, hy⟩ := copyRows_spec hf h4 (h h4 0)
  obtain ⟨u, hu⟩ := copyRows_spec hf h4 (h h4 1)
  obtain ⟨v, hv⟩ := copyRows_spec hf h4 (h h4 2)
  simp [hy, hu, hv]

theorem copy_safe (h : f.is420 = true → ∀ i, (f.planes i).colInc ≠ 0) {s : I420} (hs : s.WellFormed) {aligned : Fin 3 → Nat}
    (ha : ∀ i, aligned i < 64) :
    ∃ copied s', s.copy aligned f = some (copied, s') ∧ s'.WellFormed ∧ (copied = false → s' = s) ∧
      (copied = true → s'.Holds f) := by
  unfold I420.copy
  split
  · exact ⟨false, s, rfl, hs, fun _ => rfl, nofun⟩
  rename_i hn
  have hf : f.fits = true := by
    by_contra hc
    exact hn (Or.inl (by simpa using hc))
  have h4 : f.is420 = true := by
    by_contra hc
    exact hn (Or.inr (by simpa using hc))
  obtain ⟨y, hy, hy1, hy2⟩ := I420.Plane.copy_spec (hs 0) (ha 0) hf h4 (h h4 0)
  obtain ⟨u, hu, hu1, hu2⟩ := I420.Plane.copy_spec (hs 1) (ha 1) hf h4 (h h4 1)
  obtain ⟨v, hv, hv1, hv2⟩ := I420.Plane.copy_spec (hs 2) (ha 2) hf h4 (h h4 2)
  refine ⟨true, _, by simp only [hy, hu, hv, Option.bind_eq_bind, Option.bind_some]; rfl, ?_, nofun, fun _ => ⟨rfl, rfl, ?_⟩⟩
  · intro i
    match i with
    | 0 => exact hy1
    | 1 => exact hu1
    | 2 => exact hv1
  · intro i
    match i with
    | 0 => exact hy2
    | 1 => exact hu2
    | 2 => exact hv2

theorem colInc_of_copy (hf : f.fits = true) (h4 : f.is420 = true) {s : I420} {aligned : Fin 3 → Nat}
    (h : (s.copy aligned f).isSome) (i : Fin 3) : (f.planes i).colInc ≠ 0 := by
  intro hi
  have hn : ¬ (f.fits = false ∨ f.is420 = false) := by simp [hf, h4]
  have hnone := I420.Plane.copy_none (p := s.planes i) (aligned i) hi (planeSize_spec hf h4 i).2.1
  unfold I420.copy at h
  rw [if_neg hn] at h
  simp only [Option.isSome_iff_exists, Option.bind_eq_bind, Option.bind_eq_some_iff] at h
  obtain ⟨r, y, hy, u, hu, v, hv, -⟩ := h
  match i with
  | 0 => simp [hnone] at hy
  | 1 => simp [hnone] at hu
  | 2 => simp [hnone] at hv

end

/-- Of the frames that `fits` accepts, the ones every reader can read: the last luma sample
by column and the last V sample by U's layout are in their slices, and a 4:2:0 picture has no
increment of zero. -/
theorem safe_to_read_iff (f : Frame) (hf : f.fits = true) :
    SafeToRead f ↔ f.Converts ∧ (f.is420 = true → ∀ i, (f.planes i).colInc ≠ 0) := by
  obtain ⟨hw, hh, -⟩ := Frame.fits_iff.mp hf
  constructor
  · intro h
    refine ⟨?_, ?_⟩
    · -- the last pixel of the last row
      obtain ⟨planes, hpl, hsafe⟩ := h.rows (f.height - 1) (by omega)
      cases hpl.symm.trans (Frame.row_eq hf (show f.height - 1 < f.height by omega))
      have hs := (rowScalar_isSome_iff (Frame.horiz_pos hf) (Nat.zero_mod _)).mp
        (hsafe .other (List.replicate f.width 0)).1 (f.width - 1) (Nat.zero_le _) (by simp; omega)
      obtain ⟨-, hv, hy⟩ := hs
      have hy' : (f.width - 1) * (f.planes 0).colInc < (f.bytes 0).len - f.start (f.height - 1) 0 := hy
      have hv' : (f.width - 1) / (f.planes 1).horizSubsampling * (f.planes 1).colInc <
        (f.bytes 2).len - f.start (f.height - 1) 2 := hv
      exact ⟨by omega, by omega⟩
    · intro h4 i
      obtain ⟨copied, s', hcopy, -⟩ := h.copy ⟨fun _ => ⟨⟨0, fun _ => 0⟩, 0, 0⟩, 0, 0⟩ (fun _ => (by decide : 0 < 64))
        (fun _ => 0) (fun _ => by decide)
      exact colInc_of_copy hf h4 (Option.isSome_of_eq_some hcopy) i
  · rintro ⟨hc, h4⟩
    refine ⟨?_, ?_, ?_, planes_safe h4, fun s hs aligned ha => copy_safe h4 hs ha⟩
    · intro row hr
      refine ⟨f.rowOf row, Frame.row_eq hf hr, ?_⟩
      intro arch out
      refine ⟨(rowScalar_isSome_iff (Frame.horiz_pos hf) (Nat.zero_mod _)).mpr fun k _ hk =>
        Frame.rowOf_holds hf hc hr (by omega), ?_⟩
      obtain hv | ⟨-, -, hv⟩ := rowVectorised_cases arch f.mem (f.rowOf row) f.layout out f.width f.bt709 f.fullRange
      · exact Option.isSome_of_eq_some hv
      · exact Option.isSome_of_eq_some hv
    · intro p hp changed
      obtain ⟨p', changed', hcmp, hwf, -⟩ := compare_spec hp f changed
      exact ⟨p', changed', hcmp, hwf⟩
    · intro arch o ho out width height changed
      exact write_safe hc arch ho out width height changed

theorem safe_to_read_pixel : SafeToRead (onePixel 100 true) := by
  refine (safe_to_read_iff (onePixel 100 true) (by decide +kernel)).mpr ⟨⟨?_, ?_⟩, ?_⟩
  · decide +kernel
  · decide +kernel
  · intro _ i
    match i with
    | 0 => decide
    | 1 => decide
    | 2 => decide

/-- Four by two of 4:2:0, U every other byte of its slice and V its own two bytes: it fits,
and converting it reads V's third byte. -/
theorem v_read_past_end :
    ∃ f : Frame, f.fits = true ∧ f.is420 = true ∧ Output.new.write .neon f ⟨8, fun _ => 0⟩ 4 2 Changes.new = none ∧
      ¬ SafeToRead f := by
  refine ⟨⟨fun _ => 128, fun i => if i = 0 then ⟨0, 8⟩ else if i = 1 then ⟨8, 3⟩ else ⟨11, 2⟩,
    fun i => if i = 0 then ⟨0, 1, 4, 1, 1⟩ else if i = 1 then ⟨0, 2, 4, 2, 2⟩ else ⟨0, 1, 2, 2, 2⟩, 4, 2, false, false⟩,
    by decide +kernel, by decide +kernel, ?_⟩
  generalize hf : (⟨fun _ => 128, fun i => if i = 0 then ⟨0, 8⟩ else if i = 1 then ⟨8, 3⟩ else ⟨11, 2⟩,
    fun i => if i = 0 then ⟨0, 1, 4, 1, 1⟩ else if i = 1 then ⟨0, 2, 4, 2, 2⟩ else ⟨0, 1, 2, 2, 2⟩, 4, 2, false, false⟩ :
    Frame) = f
  have hnone : Output.new.write .neon f ⟨8, fun _ => 0⟩ 4 2 Changes.new = none := by
    have hs : (Output.new.write .neon f ⟨8, fun _ => 0⟩ 4 2 Changes.new).isSome = false := by
      rw [← hf]
      decide +kernel
    exact Option.not_isSome_iff_eq_none.mp (by simp [hs])
  refine ⟨hnone, ?_⟩
  intro h
  obtain ⟨o', out', changed', hw, -⟩ := h.write .neon Output.new nofun ⟨8, fun _ => 0⟩ 4 2 Changes.new
  rw [hnone] at hw
  cases hw

end Vento.Video
