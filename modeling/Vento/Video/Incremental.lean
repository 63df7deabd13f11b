import Mathlib.Algebra.Ring.Nat
import Mathlib.Data.List.Basic
import Vento.Video.Output
/-!
# One frame after another into one destination

The destination as a decoder fills it, a frame at a time through one `Output`, with what
moved added up between one `reset` and the next. `incremental_conversion_full`: as long as
the frames stay within `Within`, the part of the destination that the last frame covers is
what the scalar loop makes of the whole of it, and the rectangle handed on has every pixel
that any frame since the reset changed.

`Within` is where the copy's `Shape` says all that the conversion depends on. The
comparison takes luma a row at a time, so luma must not be subsampled in rows; it takes V
by V's own increment and U's rows, so the two must be the same; and two frames of one
shape must be of one matrix, one range and one order of U and V.
-/

namespace Vento.Video

open Lib (Buffer)

/-- The pixels of a destination that two states of it differ in. -/
def differing (width height : Nat) (a b : Buffer Nat) : List (Nat × Nat) :=
  (List.range height).flatMap fun row =>
    ((List.range width).filter fun col => a.get (row * width + col) ≠ b.get (row * width + col)).map (row, ·)

theorem mem_differing {width height : Nat} {a b : Buffer Nat} {p : Nat × Nat} :
    p ∈ differing width height a b ↔
      p.1 < height ∧ p.2 < width ∧ a.get (p.1 * width + p.2) ≠ b.get (p.1 * width + p.2) := by
  obtain ⟨row, col⟩ := p
  simp [differing]

/-- A destination and what fills it. The last three are what the results are about and no
code reads: the part of the last frame that was written, the pixels some frame changed
since the last reset, and the largest frame since then. -/
structure Session where
  output : Output
  out : Buffer Nat
  changed : Changes
  last : Option Frame
  touched : List (Nat × Nat)
  area : Nat × Nat

inductive Act where
  | reset
  | write (frame : Frame)

/-- The frames `write` does anything with. -/
def accepted (f : Frame) (out : Buffer Nat) (width height : Nat) : Bool :=
  (f.crop width height).width ≠ 0 ∧ (f.crop width height).height ≠ 0 ∧ width * height ≤ out.len ∧
    (f.crop width height).fits = true

def Session.step (arch : Arch) (width height : Nat) (s : Session) : Act → Option Session
  | .reset => some { s with changed := s.changed.reset height, touched := [], area := (0, 0) }
  | .write frame => do
    let (output, out, changed) ← s.output.write arch frame s.out width height s.changed
    let f := frame.crop width height
    some (if accepted frame s.out width height then
      ⟨output, out, changed, some f, s.touched ++ differing width height s.out out,
        (max s.area.1 f.width, max s.area.2 f.height)⟩
    else { s with output := output, out := out, changed := changed })

/-- A destination of words nothing has been written to. -/
def Session.start (words : Nat → Nat) (width height : Nat) : Session :=
  ⟨Output.new, ⟨width * height, words⟩, Changes.new, none, [], (0, 0)⟩

/-- U before V in an interleaved run. -/
def Frame.uFirst (f : Frame) : Bool := (f.planes 1).offset < (f.planes 2).offset

/-- What a frame's layout and its numbers must be for the comparison to see what the
conversion reads. -/
structure Comparable (f : Frame) : Prop where
  converts : f.Converts
  lumaRows : (f.planes 0).vertSubsampling = 1
  vRows : (f.planes 2).vertSubsampling = (f.planes 1).vertSubsampling
  vCols : (f.planes 2).colInc = (f.planes 1).colInc

/-- The frame's numbers mean what the last one's of its shape did. -/
structure SameMeaning (p f : Frame) : Prop where
  bt709 : p.bt709 = f.bt709
  fullRange : p.fullRange = f.fullRange
  order : f.interleaved = true → p.uFirst = f.uFirst

def Within (width height : Nat) (s : Session) : Act → Prop
  | .reset => True
  | .write frame =>
    let f := frame.crop width height
    accepted frame s.out width height = true →
      Comparable f ∧ (s.area.1 ≤ f.width ∧ s.area.2 ≤ f.height) ∧
        ∀ p, s.last = some p → Shape.of p = Shape.of f → SameMeaning p f

/-! ## A pixel from the packed copy -/

/-- Where the copy's rows have a sample of U or of V. -/
def Frame.place (f : Frame) (v : Bool) (sample : Nat) : Nat :=
  if f.interleaved then 2 * sample + (if f.uFirst = v then 1 else 0)
  else if v then (Shape.of f).chroma.1 + sample else sample

section
variable {f p : Frame}

theorem place_spec {v : Bool} {sample : Nat} (h : sample < (Shape.of f).chroma.1) :
    f.place v sample < 2 * (Shape.of f).chroma.1 ∧ f.sampleOf (f.place v sample) = sample := by
  unfold Frame.place Frame.sampleOf
  cases f.interleaved with
  | true =>
    simp only [if_true]
    split <;> omega
  | false =>
    simp only [Bool.false_eq_true, if_false]
    cases v with
    | false => exact ⟨by simp only [Bool.false_eq_true, if_false]; omega, by simp [h]⟩
    | true =>
      have hn : ¬ (Shape.of f).chroma.1 + sample < (Shape.of f).chroma.1 := by omega
      exact ⟨by simp only [if_true]; omega, by simp [hn]⟩

theorem chromaAt_u (f : Frame) {crow sample : Nat} (h : sample < (Shape.of f).chroma.1) :
    f.chromaAt crow (f.place false sample) = f.sampleAt 1 crow sample := by
  unfold Frame.chromaAt Frame.place
  cases hi : f.interleaved with
  | true =>
    simp only [Frame.interleaved, decide_eq_true_eq] at hi
    obtain ⟨-, h1, -, -, ho⟩ := hi
    simp only [if_true, Frame.sampleAt, Frame.uFirst, h1]
    congr 2
    rcases ho with ho | ho
    · simp [ho]
      omega
    · have : ¬ (f.planes 1).offset < (f.planes 2).offset := by omega
      simp [this]
      omega
  | false =>
    simp [h]

theorem chromaAt_v (f : Frame) {crow sample : Nat} : f.chromaAt crow (f.place true sample) = f.sampleAt 2 crow sample := by
  unfold Frame.chromaAt Frame.place
  cases hi : f.interleaved with
  | true =>
    simp only [Frame.interleaved, decide_eq_true_eq] at hi
    obtain ⟨hb, -, h2, hr, ho⟩ := hi
    simp only [if_true, Frame.sampleAt, Frame.uFirst, h2, hb, hr]
    congr 2
    rcases ho with ho | ho
    · simp [ho]
      omega
    · have : ¬ (f.planes 1).offset < (f.planes 2).offset := by omega
      simp [this]
      omega
  | false =>
    have : ¬ (Shape.of f).chroma.1 + sample < (Shape.of f).chroma.1 := by omega
    simp [this]

theorem col_div_lt {col : Nat} (h : col < f.width) : col / (Shape.of f).horiz < (Shape.of f).chroma.1 := by
  have h2 : 0 < (Shape.of f).horiz := Nat.lt_of_lt_of_le Nat.one_pos (Nat.le_max_right _ _)
  have hle : col / (Shape.of f).horiz + 1 ≤ (col + (Shape.of f).horiz) / (Shape.of f).horiz := by
    rw [Nat.add_div_right _ h2]
  refine Nat.lt_of_lt_of_le (Nat.lt_succ_self _) (Nat.le_trans hle (Nat.div_le_div_right ?_))
  show col + (Shape.of f).horiz ≤ f.width + (Shape.of f).horiz - 1
  omega

/-- A pixel's word, from the samples the comparison sees. -/
theorem converted_eq (hf : f.fits = true) (hc : Comparable f) {row col : Nat} (h : col < f.width) :
    f.converted row col = pixel f.coefficients (f.sampleAt 0 row col)
      (f.chromaAt (row / (Shape.of f).vert) (f.place false (col / (Shape.of f).horiz)))
      (f.chromaAt (row / (Shape.of f).vert) (f.place true (col / (Shape.of f).horiz))) := by
  have h1 := (Frame.fits_iff.mp hf).2.2 1
  have hv : (Shape.of f).vert = (f.planes 1).vertSubsampling := Nat.max_eq_left (Nat.pos_of_ne_zero h1.2.1)
  have hh : (Shape.of f).horiz = (f.planes 1).horizSubsampling := Nat.max_eq_left (Nat.pos_of_ne_zero h1.1)
  rw [chromaAt_u f (col_div_lt h), chromaAt_v f, hv, hh]
  simp only [Frame.converted, pixelOf, Frame.rowOf, Frame.start, Frame.layout, Frame.sampleAt, hc.lumaRows, hc.vRows, hc.vCols,
    Nat.div_one, Nat.add_assoc]

/-- Two frames of one shape and one meaning, a copy of the first, and what comparing the
second with it marks: a pixel that comes out otherwise is marked. -/
theorem covers_of_converted_ne {previous : Previous} {changed : Changes} (hpf : p.fits = true) (hff : f.fits = true)
    (hp : Comparable p) (hf : Comparable f) (hk : previous.Keeps p) (hs : Shape.of p = Shape.of f) (hm : SameMeaning p f)
    (hmark : Marks previous f changed) {row col : Nat} (hr : row < f.height) (hc : col < f.width)
    (hne : p.converted row col ≠ f.converted row col) : changed.Covers row col := by
  have hw : p.width = f.width := congrArg Shape.width hs
  have hh : p.height = f.height := congrArg Shape.height hs
  have hi : p.interleaved = f.interleaved := congrArg Shape.interleaved hs
  by_contra hcov
  apply hne
  have hluma : p.sampleAt 0 row col = f.sampleAt 0 row col := by
    by_contra hd
    apply hcov (hmark.luma row hr col hc _)
    rw [← hw, hk.luma row (by omega) col (by omega)]
    exact hd
  have hplace : ∀ v sample, p.place v sample = f.place v sample := by
    intro v sample
    unfold Frame.place
    rw [hi, hs]
    cases hfi : f.interleaved with
    | true => rw [hm.order hfi]
    | false => rfl
  have hchroma : ∀ v, p.chromaAt (row / (Shape.of f).vert) (f.place v (col / (Shape.of f).horiz)) =
      f.chromaAt (row / (Shape.of f).vert) (f.place v (col / (Shape.of f).horiz)) := by
    intro v
    obtain ⟨hlt, hof⟩ := place_spec (v := v) (col_div_lt hc)
    by_contra hd
    apply hcov (hmark.chroma _ hlt row hr col hc hof.symm _)
    have := hk.chroma (row / (Shape.of f).vert) (by rw [hs]; exact row_div_lt hr) _ (by rw [hs]; exact hlt)
    rw [hs] at this
    rw [this]
    exact hd
  have hcoef : p.coefficients = f.coefficients := by
    unfold Frame.coefficients
    rw [hm.bt709, hm.fullRange]
  rw [converted_eq hpf hp (by omega), converted_eq hff hf hc, hcoef, hluma, hs, hplace, hplace, hchroma, hchroma]

end

/-! ## Every run -/

/-- What holds between acts: the copy, where there is one, is of the frame that was written
last, and the destination is its conversion. -/
structure Session.Inv (width height : Nat) (s : Session) : Prop where
  room : s.out.len = width * height
  wellFormed : s.output.previous.WellFormed
  copy : ∀ shape, s.output.previous.shape = some shape →
    shape.height ≤ s.changed.rows.length ∧ ∃ p, s.last = some p ∧ s.output.previous.Keeps p
  last : ∀ p, s.last = some p → p.fits = true ∧ Comparable p ∧ p.width ≤ width ∧ p.height ≤ height ∧
    ∀ row < p.height, ∀ col < p.width, s.out.get (row * width + col) = p.converted row col
  touched : ∀ q ∈ s.touched, q.2 < width ∧ q.1 < s.area.2 ∧ q.2 < s.area.1 ∧ s.changed.Covers q.1 q.2

section
variable (arch : Arch) {width height : Nat} {s : Session}

theorem accepted_iff {f : Frame} {out : Buffer Nat} : accepted f out width height = true ↔
    (f.crop width height).width ≠ 0 ∧ (f.crop width height).height ≠ 0 ∧ width * height ≤ out.len ∧
      (f.crop width height).fits = true := by
  unfold accepted
  rw [decide_eq_true_eq]

/-- A frame that is not accepted leaves everything as it was. -/
theorem write_refused {f : Frame} (h : ¬ accepted f s.out width height = true) :
    s.step arch width height (.write f) = some s := by
  have hw : s.output.write arch f s.out width height s.changed = some (s.output, s.out, s.changed) := by
    unfold Output.write
    dsimp only
    split
    · rfl
    · rename_i hz
      rw [if_pos]
      cases hf : (f.crop width height).fits with
      | false => rfl
      | true => exact absurd (accepted_iff.mpr ⟨by omega, by omega, by omega, hf⟩) h
  simp [Session.step, hw, h]

/-- What an accepted frame within bounds does. -/
theorem write_accepted {frame f : Frame} (hcrop : frame.crop width height = f) (hi : s.Inv width height)
    (h : accepted frame s.out width height = true) (hc : f.Converts) :
    ∃ o' out' changed', s.step arch width height (.write frame) = some ⟨o', out', changed', some f,
        s.touched ++ differing width height s.out out', (max s.area.1 f.width, max s.area.2 f.height)⟩ ∧
      s.output.previous.compare f s.changed = some (o'.previous, changed') ∧
      ConvertedBefore f width changed' s.out f.height out' := by
  obtain ⟨hw, hh, hlen, hf⟩ := accepted_iff.mp h
  rw [hcrop] at hw hh hf
  have hwle : f.width ≤ width := by rw [← hcrop]; exact Nat.min_le_left _ _
  have hhle : f.height ≤ height := by rw [← hcrop]; exact Nat.min_le_left _ _
  have hroom : width * f.height ≤ s.out.len := Nat.le_trans (Nat.mul_le_mul_left _ hhle) hlen
  obtain ⟨o', out', changed', hconv, hcmp, hb⟩ := convert_spec arch hi.wellFormed hf hc s.changed hwle hroom
  have hz : ¬ (f.width = 0 ∨ f.height = 0 ∨ s.out.len < width * height) := by omega
  have hwrite : s.output.write arch frame s.out width height s.changed = some (o', out', changed') := by
    unfold Output.write
    dsimp only
    rw [hcrop, if_neg hz, if_neg (by simp [hf]), hconv]
  refine ⟨o', out', changed', ?_, hcmp, hb⟩
  simp [Session.step, hwrite, h, hcrop]

/-- Rows of `width` words apart do not meet: a word past the frame's part is in no row of it. -/
theorem ConvertedBefore.unchanged {f : Frame} {changed : Changes} {old out : Buffer Nat}
    (h : ConvertedBefore f width changed old f.height out) {row col : Nat} (hw : f.width ≤ width) (hc : col < width)
    (hn : ¬ (row < f.height ∧ col < f.width)) : out.get (row * width + col) = old.get (row * width + col) := by
  apply h.others
  intro r hr
  rcases Nat.lt_trichotomy r row with hlt | heq | hgt
  · have := Nat.mul_le_mul_right width (Nat.succ_le_of_lt hlt)
    rw [Nat.succ_mul] at this
    exact Or.inr (by omega)
  · subst heq
    exact Or.inr (by omega)
  · have := Nat.mul_le_mul_right width (Nat.succ_le_of_lt hgt)
    rw [Nat.succ_mul] at this
    exact Or.inl (by omega)

/-- A write after which each row of the frame is the frame's, and each pixel that it changed,
or that one before it had, is marked. -/
theorem inv_of_written {f : Frame} {o' : Output} {out' : Buffer Nat} {changed' : Changes} (hi : s.Inv width height)
    (hf : f.fits = true) (hcomp : Comparable f) (hw : f.width ≤ width) (hh : f.height ≤ height)
    (hwf : o'.previous.WellFormed) (hb : ConvertedBefore f width changed' s.out f.height out')
    (hcopy : ∀ shape, o'.previous.shape = some shape → shape.height ≤ changed'.rows.length ∧ o'.previous.Keeps f)
    (hkept : ∀ row < f.height, changed'.row row = false → ∀ col < f.width,
      s.out.get (row * width + col) = f.converted row col)
    (hnew : ∀ row < f.height, ∀ col < f.width, s.out.get (row * width + col) ≠ f.converted row col → changed'.Covers row col)
    (hold : ∀ q ∈ s.touched, changed'.Covers q.1 q.2) :
    Session.Inv width height ⟨o', out', changed', some f, s.touched ++ differing width height s.out out',
      (max s.area.1 f.width, max s.area.2 f.height)⟩ := by
  refine ⟨hb.len.trans hi.room, hwf, ?_, ?_, ?_⟩
  · intro shape hs
    obtain ⟨h1, h2⟩ := hcopy shape hs
    exact ⟨h1, f, rfl, h2⟩
  · intro p hp
    cases hp
    refine ⟨hf, hcomp, hw, hh, ?_⟩
    intro row hr col hc
    show out'.get (row * width + col) = f.converted row col
    rw [hb.rows row hr col hc]
    cases hm : changed'.row row with
    | true => rfl
    | false => exact hkept row hr hm col hc
  · intro q hq
    rcases List.mem_append.mp hq with hq | hq
    · obtain ⟨h0, h1, h2, -⟩ := hi.touched q hq
      refine ⟨h0, ?_, ?_, hold q hq⟩
      · exact Nat.lt_of_lt_of_le h1 (Nat.le_max_left _ _)
      · exact Nat.lt_of_lt_of_le h2 (Nat.le_max_left _ _)
    · obtain ⟨h1, h2, hne⟩ := mem_differing.mp hq
      have hin : q.1 < f.height ∧ q.2 < f.width := by
        by_contra hn
        exact hne (hb.unchanged hw h2 hn).symm
      refine ⟨h2, ?_, ?_, ?_⟩
      · exact Nat.lt_of_lt_of_le hin.1 (Nat.le_max_right _ _)
      · exact Nat.lt_of_lt_of_le hin.2 (Nat.le_max_right _ _)
      · apply hnew q.1 hin.1 q.2 hin.2
        rw [hb.rows q.1 hin.1 q.2 hin.2] at hne
        cases hm : changed'.row q.1 with
        | true =>
          rw [hm] at hne
          exact hne
        | false =>
          rw [hm] at hne
          exact absurd rfl hne

theorem step_inv (a : Act) (hi : s.Inv width height) (hok : Within width height s a) :
    ∃ s', s.step arch width height a = some s' ∧ s'.Inv width height := by
  cases a with
  | reset =>
    refine ⟨_, rfl, hi.room, hi.wellFormed, ?_, hi.last, by simp⟩
    intro shape hs
    obtain ⟨-, p, hp, hk⟩ := hi.copy shape hs
    refine ⟨?_, p, hp, hk⟩
    cases hk.shape.symm.trans hs
    obtain ⟨-, -, -, hh, -⟩ := hi.last p hp
    show (Shape.of p).height ≤ (s.changed.reset height).rows.length
    rw [Changes.reset, List.length_replicate]
    exact hh
  | write frame =>
    by_cases hacc : accepted frame s.out width height = true
    · obtain ⟨hcomp, harea, hsame⟩ := hok hacc
      obtain ⟨-, -, -, hf⟩ := accepted_iff.mp hacc
      have hw : (frame.crop width height).width ≤ width := Nat.min_le_left _ _
      have hh : (frame.crop width height).height ≤ height := Nat.min_le_left _ _
      obtain ⟨o', out', changed', hstep, hcmp, hb⟩ := write_accepted arch rfl hi hacc hcomp.converts
      generalize frame.crop width height = f at *
      refine ⟨_, hstep, ?_⟩
      obtain ⟨p', c', hcmp', hwf, hcases⟩ := compare_spec hi.wellFormed f s.changed
      cases hcmp.symm.trans hcmp'
      have hall : (∀ row < f.height, ∀ col < f.width, changed'.Covers row col) →
          (∀ shape, o'.previous.shape = some shape → shape.height ≤ changed'.rows.length ∧ o'.previous.Keeps f) →
          Session.Inv width height ⟨o', out', changed', some f, s.touched ++ differing width height s.out out',
            (max s.area.1 f.width, max s.area.2 f.height)⟩ := by
        intro hcov hcopy
        refine inv_of_written hi hf hcomp hw hh hwf hb hcopy ?_ (fun row hr col hc _ => hcov row hr col hc) ?_
        · intro row hr hm col hc
          exact absurd ((hcov row hr col hc).moved.symm.trans hm) nofun
        · intro q hq
          obtain ⟨-, h1, h2, -⟩ := hi.touched q hq
          exact hcov q.1 (by omega) q.2 (by omega)
      have hlenAll : (s.changed.all f.width f.height).rows.length = f.height := by
        unfold Changes.all
        split <;> simp
      rcases hcases with ⟨hnone, rfl⟩ | ⟨hk, hg⟩ | ⟨hs, hk, hg, hm⟩
      · apply hall fun row hr col hc => Changes.all_covers hr hc
        intro shape hs
        rw [hnone] at hs
        cases hs
      · apply hall fun row hr col hc => hg.covers _ _ (Changes.all_covers hr hc)
        intro shape hs
        cases hk.shape.symm.trans hs
        exact ⟨by rw [hg.length, hlenAll]; exact Nat.le_refl _, hk⟩
      · obtain ⟨hlen, p, hp, hkp⟩ := hi.copy _ hs
        obtain ⟨hpf, hpc, -, -, hpo⟩ := hi.last p hp
        have hshape : Shape.of p = Shape.of f := Option.some.inj (hkp.shape.symm.trans hs)
        have hmark := hm hlen
        have hwp : p.width = f.width := congrArg Shape.width hshape
        have hhp : p.height = f.height := congrArg Shape.height hshape
        have hne : ∀ row < f.height, ∀ col < f.width, s.out.get (row * width + col) ≠ f.converted row col →
            changed'.Covers row col := by
          intro row hr col hc hne
          rw [hpo row (by omega) col (by omega)] at hne
          exact covers_of_converted_ne hpf hf hpc hcomp hkp hshape (hsame p hp hshape) hmark hr hc hne
        refine inv_of_written hi hf hcomp hw hh hwf hb ?_ ?_ hne ?_
        · intro shape hs'
          cases hk.shape.symm.trans hs'
          exact ⟨by rw [hg.length]; exact hlen, hk⟩
        · intro row hr hrow col hc
          by_contra hd
          exact absurd ((hne row hr col hc hd).moved.symm.trans hrow) nofun
        · intro q hq
          obtain ⟨-, -, -, hcov⟩ := hi.touched q hq
          exact hg.covers _ _ hcov
    · exact ⟨s, write_refused arch hacc, hi⟩

end

/-- The destination is what the scalar loop makes of the last frame, row by row, and the
rectangle handed on has every pixel that changed. -/
structure Session.Full (width : Nat) (s : Session) : Prop where
  converted : ∀ f, s.last = some f → ∀ row < f.height, ∃ planes line, f.row row = some planes ∧
    s.out.window? (row * width) f.width = some line ∧
    rowScalar f.mem planes f.layout (List.replicate f.width 0) 0 f.width f.coefficients = some line
  damage : ∀ q ∈ s.touched, ∃ x y w h, s.changed.bounds width = some (x, y, w, h) ∧ x ≤ q.2 ∧ q.2 < x + w ∧ y ≤ q.1 ∧
    q.1 < y + h

theorem Session.Inv.full {width height : Nat} {s : Session} (h : s.Inv width height) : s.Full width := by
  refine ⟨?_, ?_⟩
  · intro f hf row hr
    obtain ⟨hfit, hcomp, hw, hh, hout⟩ := h.last f hf
    have hroom : row * width + f.width ≤ s.out.len := by
      rw [h.room, Nat.mul_comm width]
      have := Nat.mul_le_mul_right width (show row + 1 ≤ height by omega)
      rw [Nat.succ_mul] at this
      omega
    refine ⟨f.rowOf row, _, Frame.row_eq hfit hr, Lib.Buffer.window?_eq hroom, ?_⟩
    rw [Frame.rowScalar_eq hfit hcomp.converts hr List.length_replicate]
    congr 1
    apply List.map_congr_left
    intro col hc
    exact (hout row hr col (List.mem_range.mp hc)).symm
  · intro q hq
    obtain ⟨hw, -, -, hcov⟩ := h.touched q hq
    exact hcov.bounds hw

/-- Every run of frames within bounds goes through, and the destination and the damage are
right after it. -/
theorem incremental_conversion_full (arch : Arch) (words : Nat → Nat) (width height : Nat) (acts : List Act)
    (h : Lib.Meets (Session.step arch width height) (Within width height) (Session.start words width height) acts) :
    ∃ s, Lib.run (Session.step arch width height) (Session.start words width height) acts = some s ∧ s.Full width := by
  have hstart : (Session.start words width height).Inv width height := by
    refine ⟨rfl, nofun, nofun, nofun, ?_⟩
    intro q hq
    cases hq
  have go : ∀ (acts : List Act) (s : Session), s.Inv width height →
      Lib.Meets (Session.step arch width height) (Within width height) s acts →
      ∃ t, Lib.run (Session.step arch width height) s acts = some t ∧ t.Inv width height := by
    intro acts
    induction acts with
    | nil =>
      intro s hs _
      exact ⟨s, rfl, hs⟩
    | cons a acts ih =>
      intro s hs hm
      obtain ⟨s', hstep, hs'⟩ := step_inv arch a hs hm.1
      obtain ⟨t, hrun, ht⟩ := ih s' hs' (hm.2 s' hstep)
      refine ⟨t, ?_, ht⟩
      rw [Lib.run_cons, hstep]
      exact hrun
  obtain ⟨s, hrun, hs⟩ := go acts _ hstart h
  exact ⟨s, hrun, hs.full⟩

/-- A frame of one pixel, three planes of a byte each. -/
def onePixel (luma : UInt8) (bt709 : Bool) : Frame :=
  ⟨fun i => if i = 0 then luma else if i = 1 then 200 else 50, fun i => ⟨i, 1⟩,
    fun i => if i = 0 then ⟨0, 1, 1, 1, 1⟩ else ⟨0, 1, 1, 2, 2⟩, 1, 1, bt709, false⟩

theorem incremental_conversion_full_pixel :
    ∃ s, Lib.run (Session.step .neon 1 1) (Session.start (fun _ => 0) 1 1)
      [.reset, .write (onePixel 100 true), .reset, .write (onePixel 101 true)] = some s ∧ s.Full 1 := by
  have hcomp : ∀ luma, Comparable ((onePixel luma true).crop 1 1) := by
    intro luma
    exact ⟨⟨by simp [Frame.crop, onePixel, Frame.start], by simp [Frame.crop, onePixel, Frame.start]⟩, rfl, rfl, rfl⟩
  apply incremental_conversion_full
  refine ⟨trivial, ?_⟩
  rintro s₁ ⟨⟩
  refine ⟨fun _ => ⟨hcomp 100, ⟨Nat.zero_le _, Nat.zero_le _⟩, nofun⟩, ?_⟩
  intro s₂ h₂
  refine ⟨trivial, ?_⟩
  rintro s₃ ⟨⟩
  refine ⟨fun _ => ⟨hcomp 101, ⟨Nat.zero_le _, Nat.zero_le _⟩, ?_⟩, fun _ _ => trivial⟩
  intro p hp _
  have hlast : s₂.last.map (fun p => (p.bt709, p.fullRange, p.uFirst)) = some (true, false, false) := by
    have hk : (Session.step .neon 1 1 { Session.start (fun _ => 0) 1 1 with changed := Changes.new.reset 1 }
        (.write (onePixel 100 true))).map (fun s => s.last.map fun p => (p.bt709, p.fullRange, p.uFirst)) =
        some (some (true, false, false)) := by
      decide +kernel
    have h₂' : Session.step .neon 1 1 { Session.start (fun _ => 0) 1 1 with changed := Changes.new.reset 1 }
      (.write (onePixel 100 true)) = some s₂ := h₂
    rw [h₂'] at hk
    exact Option.some.inj hk
  rw [show s₂.last = some p from hp] at hlast
  have := Option.some.inj hlast
  simp only [Prod.mk.injEq] at this
  exact ⟨this.1, this.2.1, fun _ => this.2.2⟩

/-- The stream goes over from BT.601 to BT.709 with the same samples: nothing is found to
have moved, and the destination keeps the colours of the first. -/
theorem stale_after_matrix_change :
    ∃ s, Lib.run (Session.step .neon 1 1) (Session.start (fun _ => 0) 1 1)
      [.reset, .write (onePixel 100 false), .reset, .write (onePixel 100 true)] = some s ∧ ¬ s.Full 1 := by
  generalize hrun : Lib.run (Session.step .neon 1 1) (Session.start (fun _ => 0) 1 1)
    [.reset, .write (onePixel 100 false), .reset, .write (onePixel 100 true)] = r
  have hout : r.map (fun s => s.out.window? 0 1) = some (some [4294149376]) := by
    rw [← hrun]
    decide +kernel
  have hlast : r.map (fun s => s.last.map fun f => (f.height, f.width, (f.row 0).map fun planes =>
      rowScalar f.mem planes f.layout (List.replicate f.width 0) 0 f.width f.coefficients)) =
      some (some (1, 1, some (some [4294605824]))) := by
    rw [← hrun]
    decide +kernel
  cases r with
  | none => cases hout
  | some s =>
    refine ⟨s, rfl, ?_⟩
    intro hfull
    obtain ⟨f, hf, hval⟩ := Option.map_eq_some_iff.mp (Option.some.inj hlast)
    simp only [Prod.mk.injEq] at hval
    obtain ⟨hh, hw, hrow⟩ := hval
    obtain ⟨planes, line, hpl, hwin, hsc⟩ := hfull.converted f hf 0 (by omega)
    rw [hpl, Option.map_some, hsc] at hrow
    have hwin' : s.out.window? 0 1 = some [4294149376] := Option.some.inj hout
    rw [hw, Nat.zero_mul, hwin'] at hwin
    cases hwin
    exact absurd hrow (by decide)

end Vento.Video
