import Mathlib.Algebra.Ring.Nat
import Mathlib.Data.List.Basic
import Vento.Lib.Runs
import Vento.Video.Diff
import Vento.Video.Vector
/-!
# Frames into the caller's words

`media/video/mod.rs`, `Output::write`: the part of a frame that the destination has room for
is compared with the copy of the last one, and the rows that are then marked are converted.
-/

namespace Vento.Video

open Lib (loop Buffer)

/-- Whether the two conversions agree on a row; none where the first of them panics. -/
def vectorisedAgrees (arch : Arch) (m : Memory) (row : Row) (l : Layout) (w : Nat) (c : Coefficients) : Option Bool := do
  let scalar ← rowScalar m row l (List.replicate w 0) 0 w c
  let (vector, done) ← rowVectorised arch m row l (List.replicate w 0) w c
  if done = 0 then some false
  else do
    let vector ← rowScalar m row l vector done w c
    some (decide (scalar = vector))

/-- What a decoder keeps between frames. -/
structure Output where
  previous : Previous
  checked : Option (Layout × Bool)

def Output.new : Output := ⟨Previous.new, none⟩

def Frame.coefficients (f : Frame) : Coefficients := Video.coefficients f.bt709 f.fullRange

/-- The part of a frame that a destination has room for. -/
def Frame.crop (f : Frame) (width height : Nat) : Frame := { f with width := min width f.width, height := min height f.height }

/-- One row into the destination. -/
def convertRow (arch : Arch) (f : Frame) (vectorise : Bool) (width row : Nat) (out : Buffer Nat) : Option (Buffer Nat) := do
  let planes ← f.row row
  let line ← out.window? (row * width) f.width
  let (line, col) ← if vectorise then rowVectorised arch f.mem planes f.layout line f.width f.coefficients else some (line, 0)
  let line ← rowScalar f.mem planes f.layout line col f.width f.coefficients
  some (out.put (row * width) line)

/-- Whether the vectorised conversion agreed with a frame's layout, on its first row where
the layout is not the last one's. -/
def Output.check (arch : Arch) (o : Output) (f : Frame) : Option (Layout × Bool) :=
  let fresh : Option (Layout × Bool) := do
    let planes ← f.row 0
    let ok ← vectorisedAgrees arch f.mem planes f.layout f.width f.coefficients
    some (f.layout, ok)
  match o.checked with
  | some (checked, ok) => if checked = f.layout then some (checked, ok) else fresh
  | none => fresh

/-- A frame that fits the destination's words: compared, and what is marked converted. -/
def Output.convert (arch : Arch) (o : Output) (f : Frame) (out : Buffer Nat) (width : Nat) (changed : Changes) :
    Option (Output × Buffer Nat × Changes) := do
  let checked ← o.check arch f
  let (previous, changed) ← o.previous.compare f changed
  let out ← loop (fun row out => if changed.row row then convertRow arch f checked.2 width row out else some out) 0 f.height out
  some (⟨previous, some checked⟩, out, changed)

/-- `frame` into `out`, which is `width * height` words. -/
def Output.write (arch : Arch) (o : Output) (frame : Frame) (out : Buffer Nat) (width height : Nat) (changed : Changes) :
    Option (Output × Buffer Nat × Changes) :=
  let f := frame.crop width height
  if f.width = 0 ∨ f.height = 0 ∨ out.len < width * height then some (o, out, changed)
  else if f.fits = false then some (o, out, changed)
  else o.convert arch f out width changed

/-! ## Rows of a frame -/

/-- Where a row starts in a plane. -/
def Frame.start (f : Frame) (row : Nat) (i : Fin 3) : Nat :=
  (f.planes i).offset + row / (f.planes i).vertSubsampling * (f.planes i).rowInc

/-- A row of a frame, wherever it is. -/
def Frame.rowOf (f : Frame) (row : Nat) : Row :=
  let at_ (i : Fin 3) : Slice := ⟨(f.bytes i).ptr + f.start row i, (f.bytes i).len - f.start row i⟩
  ⟨at_ 0, at_ 1, at_ 2⟩

/-- Every sample the row conversion reads is in the slice it reads it from: it takes luma at
every column, and V by U's increment and subsampling. -/
structure Frame.Converts (f : Frame) : Prop where
  luma : f.start (f.height - 1) 0 + (f.width - 1) * (f.planes 0).colInc < (f.bytes 0).len
  v : f.start (f.height - 1) 2 + (f.width - 1) / (f.planes 1).horizSubsampling * (f.planes 1).colInc < (f.bytes 2).len

/-- The word the scalar conversion gives a pixel. -/
def Frame.converted (f : Frame) (row col : Nat) : Nat := pixelOf f.mem (f.rowOf row) f.layout f.coefficients col

section
variable {f : Frame}

theorem Frame.fits_iff : f.fits = true ↔ f.width ≠ 0 ∧ f.height ≠ 0 ∧
    ∀ i, (f.planes i).horizSubsampling ≠ 0 ∧ (f.planes i).vertSubsampling ≠ 0 ∧ f.last i < (f.bytes i).len := by
  unfold Frame.fits
  split
  · rename_i h
    constructor
    · nofun
    · rintro ⟨hw, hh, -⟩
      exact absurd h (by omega)
  · rename_i h
    rw [decide_eq_true_eq]
    constructor
    · intro hi
      exact ⟨by omega, by omega, hi⟩
    · exact fun hi => hi.2.2

theorem Frame.start_le {row : Nat} (hr : row < f.height) (i : Fin 3) : f.start row i ≤ f.start (f.height - 1) i := by
  have := Nat.mul_le_mul_right (f.planes i).rowInc
    (Nat.div_le_div_right (c := (f.planes i).vertSubsampling) (show row ≤ f.height - 1 by omega))
  unfold Frame.start
  omega

theorem Frame.row_eq (hf : f.fits = true) {row : Nat} (hr : row < f.height) : f.row row = some (f.rowOf row) := by
  have hat : ∀ i, f.rowAt row i = some ⟨(f.bytes i).ptr + f.start row i, (f.bytes i).len - f.start row i⟩ := by
    intro i
    have hl := ((Frame.fits_iff.mp hf).2.2 i).2.2
    have hs := Frame.start_le hr i
    have hle : f.start row i ≤ (f.bytes i).len := by
      unfold Frame.last at hl
      unfold Frame.start at hs ⊢
      omega
    unfold Frame.rowAt Slice.from?
    exact if_pos hle
  simp [Frame.row, hat, Frame.rowOf]

theorem Frame.rowOf_holds (hf : f.fits = true) (hc : f.Converts) {row k : Nat} (hr : row < f.height) (hk : k < f.width) :
    (f.rowOf row).Holds f.layout k := by
  have hdiv := Nat.div_le_div_right (c := (f.planes 1).horizSubsampling) (show k ≤ f.width - 1 by omega)
  have huv := Nat.mul_le_mul_right (f.planes 1).colInc hdiv
  have hy := Nat.mul_le_mul_right (f.planes 0).colInc (show k ≤ f.width - 1 by omega)
  have h0 := Frame.start_le hr 0
  have h1 := Frame.start_le hr 1
  have h2 := Frame.start_le hr 2
  have hu := ((Frame.fits_iff.mp hf).2.2 1).2.2
  have hu' : f.start (f.height - 1) 1 + (f.width - 1) / (f.planes 1).horizSubsampling * (f.planes 1).colInc < (f.bytes 1).len := hu
  have hl := hc.luma
  have hv := hc.v
  refine ⟨?_, ?_, ?_⟩
  · show k / (f.planes 1).horizSubsampling * (f.planes 1).colInc < (f.bytes 1).len - f.start row 1
    omega
  · show k / (f.planes 1).horizSubsampling * (f.planes 1).colInc < (f.bytes 2).len - f.start row 2
    omega
  · show k * (f.planes 0).colInc < (f.bytes 0).len - f.start row 0
    omega

theorem Frame.horiz_pos (hf : f.fits = true) : 0 < f.layout.horizSubsampling :=
  Nat.pos_of_ne_zero ((Frame.fits_iff.mp hf).2.2 1).1

/-- A line of a row's words from any line: the conversion writes all of it. -/
theorem Frame.rowScalar_eq (hf : f.fits = true) (hc : f.Converts) {row : Nat} (hr : row < f.height) {line : List Nat}
    (hl : line.length = f.width) :
    rowScalar f.mem (f.rowOf row) f.layout line 0 f.width f.coefficients = some ((List.range f.width).map (f.converted row)) := by
  rw [rowScalar_eq_some (Frame.horiz_pos hf) (Nat.zero_mod _) fun k _ hk => Frame.rowOf_holds hf hc hr (by omega)]
  simp only [hl, Nat.min_self, Nat.sub_zero, Nat.zero_add, List.take_zero, List.nil_append]
  rw [List.drop_eq_nil_of_le (by omega), List.append_nil, List.range_eq_range']
  rfl

theorem convertRow_eq (arch : Arch) (hf : f.fits = true) (hc : f.Converts) (vectorise : Bool) {width row : Nat}
    {out : Buffer Nat} (hr : row < f.height) (hroom : row * width + f.width ≤ out.len) :
    convertRow arch f vectorise width row out = some (out.put (row * width) ((List.range f.width).map (f.converted row))) := by
  have hwin := Lib.Buffer.window?_eq hroom
  generalize hline : (List.range f.width).map (fun i => out.get (row * width + i)) = line at hwin
  have hl : line.length = f.width := by rw [← hline]; simp
  have hscalar := Frame.rowScalar_eq hf hc hr hl
  cases vectorise with
  | false => simp [convertRow, Frame.row_eq hf hr, hwin, hscalar]
  | true =>
    obtain ⟨vector, done, hv, hs⟩ := rowScalar_resumes arch f.bt709 f.fullRange
      (Option.isSome_of_eq_some hscalar)
    have hv' : rowVectorised arch f.mem (f.rowOf row) f.layout line f.width f.coefficients = some (vector, done) := hv
    have hs' := hs.trans hscalar
    change rowScalar f.mem (f.rowOf row) f.layout vector done f.width f.coefficients = _ at hs'
    simp [convertRow, Frame.row_eq hf hr, hwin, hv', hs']

theorem vectorisedAgrees_isSome (arch : Arch) (hf : f.fits = true) (hc : f.Converts) :
    ∃ ok, vectorisedAgrees arch f.mem (f.rowOf 0) f.layout f.width f.coefficients = some ok := by
  have hh : 0 < f.height := Nat.pos_of_ne_zero (Frame.fits_iff.mp hf).2.1
  have hscalar := Frame.rowScalar_eq hf hc hh (List.length_replicate (n := f.width) (a := 0))
  obtain ⟨vector, done, hv, hs⟩ := rowScalar_resumes arch f.bt709 f.fullRange
    (Option.isSome_of_eq_some hscalar)
  have hv' : rowVectorised arch f.mem (f.rowOf 0) f.layout (List.replicate f.width 0) f.width f.coefficients = some (vector, done) := hv
  have hs' := hs.trans hscalar
  change rowScalar f.mem (f.rowOf 0) f.layout vector done f.width f.coefficients = _ at hs'
  by_cases hd : done = 0
  · exact ⟨false, by simp [vectorisedAgrees, hscalar, hv', hd]⟩
  · exact ⟨true, by simp [vectorisedAgrees, hscalar, hv', hd, hs']⟩

/-- The destination with the marked rows below `k` converted. -/
structure ConvertedBefore (f : Frame) (width : Nat) (changed : Changes) (old : Buffer Nat) (k : Nat) (out : Buffer Nat) : Prop where
  len : out.len = old.len
  rows : ∀ row < k, ∀ col < f.width, out.get (row * width + col) =
    if changed.row row = true then f.converted row col else old.get (row * width + col)
  others : ∀ j, (∀ row < k, j < row * width ∨ row * width + f.width ≤ j) → out.get j = old.get j

theorem ConvertedBefore.next {width k : Nat} {changed : Changes} {old out : Buffer Nat} (hw : f.width ≤ width)
    (h : ConvertedBefore f width changed old k out) :
    ConvertedBefore f width changed old (k + 1)
      (if changed.row k = true then out.put (k * width) ((List.range f.width).map (f.converted k)) else out) := by
  have hbelow : ∀ row < k, ∀ col < f.width, row * width + col < k * width := by
    intro row hr col hc
    have := Nat.mul_le_mul_right width (Nat.succ_le_of_lt hr)
    rw [Nat.succ_mul] at this
    omega
  have hlen : ((List.range f.width).map (f.converted k)).length = f.width := by simp
  cases hm : changed.row k with
  | false =>
    simp only [Bool.false_eq_true, if_false]
    refine ⟨h.len, ?_, fun j hj => h.others j fun row hr => hj row (by omega)⟩
    intro row hr col hc
    by_cases hrk : row = k
    · subst hrk
      simp only [hm, Bool.false_eq_true, if_false]
      apply h.others
      intro row' hr'
      have := Nat.mul_le_mul_right width (Nat.succ_le_of_lt hr')
      rw [Nat.succ_mul] at this
      exact Or.inr (by omega)
    · exact h.rows row (by omega) col hc
  | true =>
    simp only [if_true]
    refine ⟨h.len, ?_, ?_⟩
    · intro row hr col hc
      by_cases hrk : row = k
      · subst hrk
        rw [Lib.Buffer.put_get_inside _ _ _ (by rw [hlen]; exact hc), if_pos hm]
        simp
      · rw [Lib.Buffer.put_get_outside _ _ (Or.inl (hbelow row (by omega) col hc))]
        exact h.rows row (by omega) col hc
    · intro j hj
      rw [Lib.Buffer.put_get_outside _ _ (by rw [hlen]; exact hj k (Nat.lt_succ_self k))]
      exact h.others j fun row hr => hj row (by omega)

/-- A frame that fits, and whose conversion stays in its slices: compared, and the marked
rows written; nothing else is. -/
theorem convert_spec (arch : Arch) {o : Output} (hp : o.previous.WellFormed) (hf : f.fits = true) (hc : f.Converts)
    {out : Buffer Nat} {width : Nat} (changed : Changes) (hw : f.width ≤ width) (hroom : width * f.height ≤ out.len) :
    ∃ o' out' changed', o.convert arch f out width changed = some (o', out', changed') ∧
      o.previous.compare f changed = some (o'.previous, changed') ∧
      ConvertedBefore f width changed' out f.height out' := by
  have hh : 0 < f.height := Nat.pos_of_ne_zero (Frame.fits_iff.mp hf).2.1
  obtain ⟨ok, hok⟩ := vectorisedAgrees_isSome arch hf hc
  obtain ⟨p', changed', hcmp, -, -⟩ := compare_spec hp f changed
  have hloop : ∀ vectorise, ∃ out',
      loop (fun row out => if changed'.row row then convertRow arch f vectorise width row out else some out) 0 f.height out =
        some out' ∧ ConvertedBefore f width changed' out f.height out' := by
    intro vectorise
    have := Lib.loop_spec
      (f := fun row out => if changed'.row row then convertRow arch f vectorise width row out else some out)
      (ConvertedBefore f width changed' out) (n := f.height) (k := 0) (s := out)
      ⟨rfl, fun row hr => absurd hr (Nat.not_lt_zero row), fun _ _ => rfl⟩
      (by
        intro k s _ hk hs
        refine ⟨_, ?_, hs.next hw⟩
        have hle : k * width + f.width ≤ s.len := by
          rw [hs.len]
          have := Nat.mul_le_mul_right width (show k + 1 ≤ f.height by omega)
          rw [Nat.succ_mul, Nat.mul_comm f.height] at this
          omega
        cases hm : changed'.row k with
        | false => rfl
        | true => simp [convertRow_eq arch hf hc vectorise (show k < f.height by omega) hle])
    rwa [Nat.zero_add] at this
  have hchecked : ∃ checked, o.check arch f = some checked := by
    unfold Output.check
    simp only [Frame.row_eq hf hh, hok, Option.bind_eq_bind, Option.bind_some]
    split
    · split
      · exact ⟨_, rfl⟩
      · exact ⟨_, rfl⟩
    · exact ⟨_, rfl⟩
  obtain ⟨checked, hchk⟩ := hchecked
  obtain ⟨out', hout, hconv⟩ := hloop checked.2
  refine ⟨⟨p', some checked⟩, out', changed', ?_, hcmp, hconv⟩
  simp only [Output.convert, hchk, hcmp, hout, Option.bind_eq_bind, Option.bind_some]

end

end Vento.Video
