import Mathlib.Algebra.Ring.Nat
import Mathlib.Data.List.Basic
import Vento.Lib.Loop
import Vento.Video.Convert
/-!
# What a frame differs from the last one in

`media/video/diff.rs`: the rows and columns a frame changed (`Changes`), and the comparison
that finds them against a packed copy of the last frame's planes (`Previous`). `none` is a
panic: an index past a slice's end, or a step of zero.

`compare_spec` is what the rest of the development uses of it: the comparison goes through
whatever the frame, and where it finds the copy of its own shape, every sample that differs
is inside what it marks and the copy is the frame's samples afterwards.
-/

namespace Vento.Video

open Lib (loop Buffer)

def columnGrain : Nat := 16

/-- The rows a frame changed, and the columns they changed in; a top or a left is none
(`usize::MAX`) where nothing has moved. -/
structure Changes where
  rows : List Bool
  top : Option Nat
  bottom : Nat
  left : Option Nat
  right : Nat
deriving DecidableEq, Repr

/-- `a.min(b)` of what is `usize::MAX` where there is none. -/
def minOf (a : Option Nat) (b : Nat) : Option Nat := some (match a with | none => b | some a => min a b)

namespace Changes

def new : Changes := ⟨[], none, 0, none, 0⟩

/-- Nothing has moved, in a picture this tall. -/
def reset (_ : Changes) (height : Nat) : Changes := ⟨List.replicate height false, none, 0, none, 0⟩

/-- All of it has. -/
def all (c : Changes) (width height : Nat) : Changes :=
  if width = 0 ∨ height = 0 then { c with rows := List.replicate height true }
  else ⟨List.replicate height true, some 0, height - 1, some 0, (width - 1) / columnGrain⟩

/-- A row moved, in the pixels from `from_` up to `to_`. -/
def mark (c : Changes) (row from_ to_ : Nat) : Changes :=
  if row < c.rows.length then
    let c := { c with rows := c.rows.set row true, top := minOf c.top row, bottom := max c.bottom row }
    if from_ < to_ then
      { c with left := minOf c.left (from_ / columnGrain), right := max c.right ((to_ - 1) / columnGrain) }
    else c
  else c

def row (c : Changes) (row : Nat) : Bool := (c.rows[row]?).getD false

/-- What moved as one rectangle. -/
def bounds (c : Changes) (width : Nat) : Option (Nat × Nat × Nat × Nat) := do
  let top ← c.top
  let left ← c.left
  let x := left * columnGrain
  let right := min ((c.right + 1) * columnGrain) width
  some (x, top, right - x, c.bottom - top + 1)

end Changes

/-- How a decoder's output is arranged, as far as a comparison cares. -/
structure Shape where
  width : Nat
  height : Nat
  horiz : Nat
  vert : Nat
  interleaved : Bool
deriving DecidableEq, Repr

namespace Shape

def of (f : Frame) : Shape :=
  ⟨f.width, f.height, max (f.planes 1).horizSubsampling 1, max (f.planes 1).vertSubsampling 1, f.interleaved⟩

/-- `width.div_ceil(horiz)` and `height.div_ceil(vert)`. -/
def chroma (s : Shape) : Nat × Nat := ((s.width + s.horiz - 1) / s.horiz, (s.height + s.vert - 1) / s.vert)

end Shape

/-- The planes of the last frame that was converted, packed. -/
structure Previous where
  luma : Buffer UInt8
  chroma : Buffer UInt8
  shape : Option Shape

def Previous.new : Previous := ⟨⟨0, fun _ => 0⟩, ⟨0, fun _ => 0⟩, none⟩

/-- A row compared sample by sample: the copy brought up to date, and the first and the last
that differ. -/
def differsEach (m : Memory) (base : Slice) (at_ inc : Nat) (i : Nat) (s : List UInt8 × Option Nat × Nat) :
    Option (List UInt8 × Option Nat × Nat) := do
  let byte ← base.get? m (at_ + i * inc)
  if s.1[i]? = some byte then some s
  else some (s.1.set i byte, minOf s.2.1 i, i)

/-- A row that differs walked in units of `grain`. -/
def differsUnit (src cached : List UInt8) (grain : Nat) (j : Nat) (s : Option Nat × Nat) : Option (Option Nat × Nat) :=
  let from_ := j * grain
  let to_ := min (from_ + grain) cached.length
  if (src.drop from_).take (to_ - from_) = (cached.drop from_).take (to_ - from_) then some s
  else some (minOf s.1 from_, to_ - 1)

/-- Where a plane row differs from the copy kept of it, and the copy brought up to date. -/
def differs (m : Memory) (base : Slice) (at_ inc grain : Nat) (cached : List UInt8) :
    Option (Option (Nat × Nat) × List UInt8) :=
  let n := cached.length
  if inc ≠ 1 then do
    let (cached, first, last) ← loop (differsEach m base at_ inc) 0 n (cached, none, 0)
    some (first.map (·, last), cached)
  else if base.len < at_ + n then none
  else
    let src := (List.range n).map fun i => m (base.ptr + (at_ + i))
    if src = cached then some (none, cached)
    else if grain = 0 then none
    else do
      let (first, last) ← loop (differsUnit src cached grain) 0 ((n + grain - 1) / grain) (none, 0)
      some (first.map (·, last), src)

def span (a b : Option (Nat × Nat)) : Option (Nat × Nat) :=
  match a, b with
  | some a, some b => some (min a.1 b.1, max a.2 b.2)
  | found, none => found
  | none, found => found

/-- A range that has every place where something differs. -/
structure Spans (n : Nat) (differ : Nat → Prop) (first : Option Nat) (last : Nat) : Prop where
  inside : ∀ i, differ i → ∃ a, first = some a ∧ a ≤ i ∧ i ≤ last
  order : ∀ a, first = some a → a ≤ last ∧ last < n

theorem Spans.mono {n : Nat} {d d' : Nat → Prop} {first : Option Nat} {last : Nat} (h : Spans n d first last)
    (hd : ∀ i, d' i → d i) : Spans n d' first last :=
  ⟨fun i hi => h.inside i (hd i hi), h.order⟩

/-- A range grown to have the places from `a` up to `b`. -/
theorem Spans.extend {n : Nat} {d d' : Nat → Prop} {first : Option Nat} {last a b : Nat} (h : Spans n d first last)
    (hd : ∀ i, d' i → d i ∨ a ≤ i ∧ i ≤ b) (hab : a ≤ b) (hb : b < n) (hlast : last ≤ b) :
    Spans n d' (minOf first a) b := by
  refine ⟨?_, ?_⟩
  · intro i hi
    rcases hd i hi with hi | hi
    · obtain ⟨f, rfl, hf, hl⟩ := h.inside i hi
      exact ⟨min f a, rfl, by omega, by omega⟩
    · cases first with
      | none => exact ⟨a, rfl, hi.1, hi.2⟩
      | some f => exact ⟨min f a, rfl, by omega, hi.2⟩
  · intro f hf
    cases first with
    | none =>
      cases hf
      exact ⟨hab, hb⟩
    | some g =>
      cases hf
      exact ⟨Nat.le_trans (Nat.min_le_right g a) hab, hb⟩

/-- What the walk over a row's samples has done before sample `i`. -/
structure EachBefore (src : Nat → UInt8) (cached : List UInt8) (i : Nat) (s : List UInt8 × Option Nat × Nat) : Prop where
  length : s.1.length = cached.length
  done : ∀ j < i, s.1[j]? = some (src j)
  left : ∀ j, i ≤ j → s.1[j]? = cached[j]?
  spans : Spans cached.length (fun j => j < i ∧ cached[j]? ≠ some (src j)) s.2.1 s.2.2
  last : s.2.2 ≤ i

theorem differsEach_spec {m : Memory} {base : Slice} {at_ inc i : Nat} {cached : List UInt8} {s : List UInt8 × Option Nat × Nat}
    (hi : i < cached.length) (hin : at_ + i * inc < base.len)
    (h : EachBefore (fun i => m (base.ptr + (at_ + i * inc))) cached i s) :
    ∃ s', differsEach m base at_ inc i s = some s' ∧ EachBefore (fun i => m (base.ptr + (at_ + i * inc))) cached (i + 1) s' := by
  have hget : base.get? m (at_ + i * inc) = some (m (base.ptr + (at_ + i * inc))) := by simp [Slice.get?, hin]
  have hci := h.left i (Nat.le_refl _)
  by_cases he : s.1[i]? = some (m (base.ptr + (at_ + i * inc)))
  · refine ⟨s, by simp [differsEach, hget, he], h.length, ?_, fun j hj => h.left j (by omega), ?_, by have := h.last; omega⟩
    · intro j hj
      by_cases hji : j = i
      · rw [hji, he]
      · exact h.done j (by omega)
    · apply h.spans.mono
      rintro j ⟨hj, hne⟩
      by_cases hji : j = i
      · rw [hji, ← hci, he] at hne
        exact absurd rfl hne
      · exact ⟨by omega, hne⟩
  · refine ⟨(s.1.set i (m (base.ptr + (at_ + i * inc))), minOf s.2.1 i, i), by simp [differsEach, hget, he],
      by simp [h.length], ?_, ?_, ?_, Nat.le_succ _⟩
    · intro j hj
      by_cases hji : j = i
      · subst hji
        simp [h.length, hi]
      · rw [List.getElem?_set_ne (Ne.symm hji)]
        exact h.done j (by omega)
    · intro j hj
      rw [List.getElem?_set_ne (by omega)]
      exact h.left j (by omega)
    · apply h.spans.extend _ (Nat.le_refl i) hi h.last
      rintro j ⟨hj, hne⟩
      by_cases hji : j = i
      · exact Or.inr (by omega)
      · exact Or.inl ⟨by omega, hne⟩

theorem differsUnit_spec {src cached : List UInt8} {grain j : Nat} {s : Option Nat × Nat} (hg : 0 < grain)
    (hj : j * grain < cached.length) (h : Spans cached.length (fun i => i < j * grain ∧ cached[i]? ≠ src[i]?) s.1 s.2 ∧ s.2 ≤ j * grain) :
    ∃ s', differsUnit src cached grain j s = some s' ∧
      Spans cached.length (fun i => (i < (j + 1) * grain ∧ i < cached.length) ∧ cached[i]? ≠ src[i]?) s'.1 s'.2 ∧
      s'.2 ≤ (j + 1) * grain := by
  have hmul : (j + 1) * grain = j * grain + grain := by rw [Nat.add_mul, Nat.one_mul]
  generalize hto : min (j * grain + grain) cached.length = stop
  by_cases he : (src.drop (j * grain)).take (stop - j * grain) = (cached.drop (j * grain)).take (stop - j * grain)
  · refine ⟨s, by simp [differsUnit, hto, he], h.1.mono ?_, by omega⟩
    rintro i ⟨hi, hne⟩
    refine ⟨?_, hne⟩
    by_contra hge
    have hs := congrArg (·[i - j * grain]?) he
    simp only [List.getElem?_take, List.getElem?_drop, show i - j * grain < stop - j * grain by omega, if_true,
      show j * grain + (i - j * grain) = i by omega] at hs
    exact hne hs.symm
  · refine ⟨(minOf s.1 (j * grain), stop - 1), by simp [differsUnit, hto, he], ?_, by omega⟩
    apply h.1.extend _ (by omega) (by omega) (by omega)
    rintro i ⟨hi, hne⟩
    by_cases hlt : i < j * grain
    · exact Or.inl ⟨hlt, hne⟩
    · exact Or.inr (by omega)

/-- The comparison of a row: it goes through where its reads are in the slice, the copy is
then the row's samples, and what differed is in the range it gives. -/
theorem differs_spec (m : Memory) (base : Slice) (at_ inc grain : Nat) (cached : List UInt8) (hg : 0 < grain)
    (hn : 0 < cached.length) (hin : ∀ i < cached.length, at_ + i * inc < base.len) :
    ∃ ans, differs m base at_ inc grain cached =
        some (ans, (List.range cached.length).map fun i => m (base.ptr + (at_ + i * inc))) ∧
      (∀ i < cached.length, cached[i]? ≠ some (m (base.ptr + (at_ + i * inc))) → ∃ a b, ans = some (a, b) ∧ a ≤ i ∧ i ≤ b) ∧
      ∀ a b, ans = some (a, b) → a ≤ b ∧ b < cached.length := by
  by_cases h1 : inc = 1
  · subst h1
    have hlen : at_ + cached.length ≤ base.len := by
      have := hin (cached.length - 1) (by omega)
      omega
    generalize hsrc : (List.range cached.length).map (fun i => m (base.ptr + (at_ + i))) = src
    have hsl : src.length = cached.length := by simp [← hsrc]
    have hget : ∀ i < cached.length, src[i]? = some (m (base.ptr + (at_ + i))) := by
      intro i hi
      simp [← hsrc, hi]
    by_cases he : src = cached
    · refine ⟨none, ?_, ?_, nofun⟩
      · simp [differs, Nat.not_lt.mpr hlen, hsrc, he]
      · intro i hi hne
        rw [← he, hget i (by omega), Nat.mul_one] at hne
        exact absurd rfl hne
    · obtain ⟨s', hloop, hsp, -⟩ := Lib.loop_spec
        (f := differsUnit src cached grain)
        (fun j s => Spans cached.length (fun i => (i < j * grain ∧ i < cached.length) ∧ cached[i]? ≠ src[i]?) s.1 s.2 ∧
          s.2 ≤ j * grain)
        (n := (cached.length + grain - 1) / grain) (k := 0) (s := (none, 0))
        ⟨⟨fun i hi => absurd hi.1.1 (by omega), nofun⟩, Nat.zero_le _⟩
        (by
          intro j s _ hj hp
          have hj' : j * grain < cached.length := by
            rw [Nat.zero_add] at hj
            have := (Nat.le_div_iff_mul_le hg).mp (Nat.succ_le_of_lt hj)
            rw [Nat.succ_mul] at this
            omega
          exact differsUnit_spec hg hj' ⟨hp.1.mono fun i hi => ⟨⟨hi.1, by omega⟩, hi.2⟩, hp.2⟩)
      have hall : cached.length ≤ (cached.length + grain - 1) / grain * grain := by
        have := Nat.div_add_mod (cached.length + grain - 1) grain
        have hm := Nat.mod_lt (cached.length + grain - 1) hg
        rw [Nat.mul_comm] at this
        omega
      rw [Nat.zero_add] at hsp
      refine ⟨s'.1.map (·, s'.2), ?_, ?_, ?_⟩
      · simp [differs, Nat.not_lt.mpr hlen, hsrc, he, Nat.ne_of_gt hg, hloop]
      · intro i hi hne
        rw [Nat.mul_one, ← hget i hi] at hne
        obtain ⟨a, ha, h1, h2⟩ := hsp.inside i ⟨⟨by omega, hi⟩, hne⟩
        exact ⟨a, s'.2, by simp [ha], h1, h2⟩
      · intro a b hab
        obtain ⟨a', ha', he'⟩ := Option.map_eq_some_iff.mp hab
        cases he'
        exact hsp.order a ha'
  · obtain ⟨s', hloop, hb⟩ := Lib.loop_spec (f := differsEach m base at_ inc)
      (EachBefore (fun i => m (base.ptr + (at_ + i * inc))) cached) (n := cached.length) (k := 0) (s := (cached, none, 0))
      ⟨rfl, nofun, fun _ _ => rfl, ⟨fun i hi => absurd hi.1 (Nat.not_lt_zero i), nofun⟩, Nat.le_refl _⟩
      (fun i s _ hi hp => differsEach_spec (by omega) (hin i (by omega)) hp)
    rw [Nat.zero_add] at hb
    have hs1 : s'.1 = (List.range cached.length).map fun i => m (base.ptr + (at_ + i * inc)) := by
      apply List.ext_getElem?
      intro i
      by_cases hi : i < cached.length
      · rw [hb.done i hi]
        simp [hi]
      · rw [hb.left i (by omega), List.getElem?_eq_none (by omega), List.getElem?_eq_none (by simp; omega)]
    refine ⟨s'.2.1.map (·, s'.2.2), ?_, ?_, ?_⟩
    · simp [differs, h1, hloop, hs1]
    · intro i hi hne
      obtain ⟨a, ha, h1, h2⟩ := hb.spans.inside i ⟨hi, hne⟩
      exact ⟨a, s'.2.2, by simp [ha], h1, h2⟩
    · intro a b hab
      obtain ⟨a', ha', he'⟩ := Option.map_eq_some_iff.mp hab
      cases he'
      exact hb.spans.order a ha'

/-- Whether every byte the comparison would read is inside the slice it reads it from. -/
def Previous.fits (f : Frame) (shape : Shape) : Bool :=
  if shape.width = 0 ∨ shape.height = 0 then false
  else
    let (cw, ch) := shape.chroma
    let last (p : Plane) (rows run : Nat) := p.offset + (rows - 1) * p.rowInc + (run - 1) * max p.colInc 1
    if (f.bytes 0).len ≤ last (f.planes 0) shape.height shape.width then false
    else if shape.interleaved then
      decide (min (f.planes 1).offset (f.planes 2).offset + (ch - 1) * (f.planes 1).rowInc + 2 * cw - 1 < (f.bytes 1).len)
    else decide (last (f.planes 1) ch cw < (f.bytes 1).len ∧ last (f.planes 2) ch cw < (f.bytes 2).len)

/-- The rows a chroma row decides. -/
def markRows (c : Changes) (k n from_ to_ : Nat) : Changes :=
  (List.range' k n).foldl (fun c row => c.mark row from_ to_) c

/-- Where a chroma row differs from its copy: one run of both planes, or U then V. -/
def differsChroma (f : Frame) (shape : Shape) (crow grain : Nat) (cached : List UInt8) :
    Option (Option (Nat × Nat) × List UInt8) :=
  if shape.interleaved then
    differs f.mem (f.bytes 1) (min (f.planes 1).offset (f.planes 2).offset + crow * (f.planes 1).rowInc) 1 grain cached
  else do
    let cw := shape.chroma.1
    let (a, u) ← differs f.mem (f.bytes 1) ((f.planes 1).offset + crow * (f.planes 1).rowInc) (f.planes 1).colInc grain
      (cached.take cw)
    let (b, v) ← differs f.mem (f.bytes 2) ((f.planes 2).offset + crow * (f.planes 2).rowInc) (f.planes 2).colInc grain
      (cached.drop cw)
    some (span a b, u ++ v)

/-- What one unit of the chroma answer is. -/
def Shape.perSample (s : Shape) : Nat := if s.interleaved then 2 else 1

/-- One chroma row: its copy compared and brought up to date, and its rows marked. -/
def compareChroma (f : Frame) (shape : Shape) (crow : Nat) (s : Buffer UInt8 × Changes) : Option (Buffer UInt8 × Changes) := do
  let cw := shape.chroma.1
  let grain := max (columnGrain * shape.perSample / shape.horiz) 1
  let cached ← s.1.window? (crow * 2 * cw) (2 * cw)
  let (moved, kept) ← differsChroma f shape crow grain cached
  let chroma := s.1.put (crow * 2 * cw) kept
  match moved with
  | none => some (chroma, s.2)
  | some (first, last) =>
    let from_ := first / shape.perSample * shape.horiz
    let to_ := min ((last / shape.perSample + 1) * shape.horiz) shape.width
    let start := crow * shape.vert
    some (chroma, markRows s.2 start (min ((crow + 1) * shape.vert) shape.height - start) from_ to_)

/-- One luma row. -/
def compareLuma (f : Frame) (shape : Shape) (row : Nat) (s : Buffer UInt8 × Changes) : Option (Buffer UInt8 × Changes) := do
  let cached ← s.1.window? (row * shape.width) shape.width
  let (moved, kept) ← differs f.mem (f.bytes 0) ((f.planes 0).offset + row * (f.planes 0).rowInc) (f.planes 0).colInc
    columnGrain cached
  let luma := s.1.put (row * shape.width) kept
  match moved with
  | none => some (luma, s.2)
  | some (first, last) => some (luma, s.2.mark row first (last + 1))

/-- Which rows of a frame differ from the last one's, marked into `changed`, and the frame
kept for the next comparison. -/
def Previous.compare (p : Previous) (f : Frame) (changed : Changes) : Option (Previous × Changes) :=
  let shape := Shape.of f
  let (cw, ch) := shape.chroma
  if Previous.fits f shape = false then some ({ p with shape := none }, changed.all f.width f.height)
  else do
    let (p, changed) :=
      if p.shape ≠ some shape then
        ((⟨⟨f.width * f.height, fun _ => 0⟩, ⟨2 * cw * ch, fun _ => 0⟩, some shape⟩ : Previous), changed.all f.width f.height)
      else (p, changed)
    let (chroma, changed) ← loop (compareChroma f shape) 0 ch (p.chroma, changed)
    let (luma, changed) ← loop (compareLuma f shape) 0 f.height (p.luma, changed)
    some ({ p with luma := luma, chroma := chroma }, changed)

/-! ## What is marked -/

namespace Changes

/-- A pixel is in a row that moved and in the rectangle. -/
structure Covers (c : Changes) (row col : Nat) : Prop where
  moved : c.row row = true
  rect : ∃ top left, c.top = some top ∧ c.left = some left ∧ top ≤ row ∧ row ≤ c.bottom ∧ left * columnGrain ≤ col ∧
    col < (c.right + 1) * columnGrain

/-- Nothing that was marked is lost. -/
structure Grows (a b : Changes) : Prop where
  length : b.rows.length = a.rows.length
  covers : ∀ row col, a.Covers row col → b.Covers row col

theorem Grows.refl (a : Changes) : a.Grows a := ⟨rfl, fun _ _ h => h⟩

theorem Grows.trans {a b c : Changes} (h : a.Grows b) (h' : b.Grows c) : a.Grows c :=
  ⟨h'.length.trans h.length, fun row col hc => h'.covers row col (h.covers row col hc)⟩

theorem row_mark (c : Changes) (row from_ to_ r : Nat) :
    (c.mark row from_ to_).row r = if r = row ∧ row < c.rows.length then true else c.row r := by
  have hset : ∀ rows : List Bool, row < rows.length →
      ((rows.set row true)[r]?).getD false = if r = row then true else (rows[r]?).getD false := by
    intro rows hr
    by_cases h : r = row
    · subst h
      simp [hr]
    · simp [h, Ne.symm h]
  unfold mark
  by_cases hr : row < c.rows.length
  · simp only [hr, if_true, and_true]
    split
    · exact hset c.rows hr
    · exact hset c.rows hr
  · simp [hr]

theorem mark_length (c : Changes) (row from_ to_ : Nat) : (c.mark row from_ to_).rows.length = c.rows.length := by
  unfold mark
  split
  · split <;> simp
  · rfl

theorem mark_grows (c : Changes) (row from_ to_ : Nat) : c.Grows (c.mark row from_ to_) := by
  refine ⟨mark_length _ _ _ _, ?_⟩
  intro r col h
  obtain ⟨top, left, ht, hl, h1, h2, h3, h4⟩ := h.rect
  refine ⟨by rw [row_mark, h.moved]; simp, ?_⟩
  unfold mark
  have hmul : ∀ a b : Nat, min a b * columnGrain ≤ a * columnGrain := fun a b => Nat.mul_le_mul_right _ (Nat.min_le_left a b)
  have hmax : ∀ a b : Nat, (a + 1) * columnGrain ≤ (max a b + 1) * columnGrain := by
    intro a b
    exact Nat.mul_le_mul_right _ (Nat.succ_le_succ (Nat.le_max_left a b))
  split
  · split
    · refine ⟨min top row, min left (from_ / columnGrain), by simp [minOf, ht], by simp [minOf, hl], by omega,
        ?_, Nat.le_trans (hmul _ _) h3, Nat.lt_of_lt_of_le h4 (hmax _ _)⟩
      exact Nat.le_trans h2 (Nat.le_max_left _ _)
    · exact ⟨min top row, left, by simp [minOf, ht], hl, by omega, Nat.le_trans h2 (Nat.le_max_left _ _), h3, h4⟩
  · exact ⟨top, left, ht, hl, h1, h2, h3, h4⟩

theorem mark_covers {c : Changes} {row from_ to_ col : Nat} (hr : row < c.rows.length) (h1 : from_ ≤ col) (h2 : col < to_) :
    (c.mark row from_ to_).Covers row col := by
  refine ⟨by rw [row_mark]; simp [hr], ?_⟩
  have hft : from_ < to_ := by omega
  have hmin : ∀ (o : Option Nat) (x : Nat), ∃ y, minOf o x = some y ∧ y ≤ x := by
    intro o x
    cases o with
    | none => exact ⟨x, rfl, Nat.le_refl _⟩
    | some y => exact ⟨min y x, rfl, Nat.min_le_right _ _⟩
  obtain ⟨top, ht, ht'⟩ := hmin c.top row
  obtain ⟨left, hl, hl'⟩ := hmin c.left (from_ / columnGrain)
  simp only [mark, hr, if_true, hft]
  refine ⟨top, left, ht, hl, ht', Nat.le_max_right _ _, ?_, ?_⟩
  · calc left * columnGrain ≤ from_ / columnGrain * columnGrain := Nat.mul_le_mul_right _ hl'
      _ ≤ from_ := Nat.div_mul_le_self _ _
      _ ≤ col := h1
  · have hm : (to_ - 1) / columnGrain ≤ max c.right ((to_ - 1) / columnGrain) := Nat.le_max_right _ _
    have hg : columnGrain = 16 := rfl
    rw [hg] at hm ⊢
    omega

theorem all_covers {c : Changes} {width height row col : Nat} (hr : row < height) (hc : col < width) :
    (c.all width height).Covers row col := by
  have hn : ¬ (width = 0 ∨ height = 0) := by omega
  unfold all
  rw [if_neg hn]
  refine ⟨by simp [Changes.row, hr], 0, 0, rfl, rfl, Nat.zero_le _, by show row ≤ height - 1; omega, by simp, ?_⟩
  have hg : columnGrain = 16 := rfl
  show col < ((width - 1) / columnGrain + 1) * columnGrain
  rw [hg]
  omega

/-- A pixel that is covered is in the rectangle handed on. -/
theorem Covers.bounds {c : Changes} {row col width : Nat} (h : c.Covers row col) (hc : col < width) :
    ∃ x y w h, c.bounds width = some (x, y, w, h) ∧ x ≤ col ∧ col < x + w ∧ y ≤ row ∧ row < y + h := by
  obtain ⟨top, left, ht, hl, h1, h2, h3, h4⟩ := h.rect
  refine ⟨left * columnGrain, top, min ((c.right + 1) * columnGrain) width - left * columnGrain, c.bottom - top + 1,
    by simp [Changes.bounds, ht, hl], h3, ?_, h1, ?_⟩
  · omega
  · omega

end Changes

theorem markRows_grows (c : Changes) (k n from_ to_ : Nat) : c.Grows (markRows c k n from_ to_) := by
  induction n generalizing c k with
  | zero => exact Changes.Grows.refl c
  | succ n ih => exact (Changes.mark_grows c k from_ to_).trans (ih _ _)

theorem markRows_covers {c : Changes} {k n from_ to_ row col : Nat} (hk : k ≤ row) (hn : row < k + n)
    (hr : row < c.rows.length) (h1 : from_ ≤ col) (h2 : col < to_) : (markRows c k n from_ to_).Covers row col := by
  induction n generalizing c k with
  | zero => omega
  | succ n ih =>
    by_cases hrow : row = k
    · subst hrow
      exact (markRows_grows _ _ n _ _).covers _ _ (Changes.mark_covers hr h1 h2)
    · exact ih (c := c.mark k from_ to_) (k := k + 1) (by omega) (by omega) (by rw [Changes.mark_length]; exact hr)

/-! ## The comparison -/

/-- A sample of a plane, its row and its column counted in samples. -/
def Frame.sampleAt (f : Frame) (i : Fin 3) (row col : Nat) : UInt8 :=
  f.mem ((f.bytes i).ptr + ((f.planes i).offset + row * (f.planes i).rowInc + col * (f.planes i).colInc))

/-- A chroma row packed as the copy has it: pairs of an interleaved run, or U then V. -/
def Frame.chromaAt (f : Frame) (crow i : Nat) : UInt8 :=
  if f.interleaved then
    f.mem ((f.bytes 1).ptr + (min (f.planes 1).offset (f.planes 2).offset + crow * (f.planes 1).rowInc + i * 1))
  else if i < (Shape.of f).chroma.1 then f.sampleAt 1 crow i
  else f.sampleAt 2 crow (i - (Shape.of f).chroma.1)

/-- The sample a place of a packed row is of. -/
def Frame.sampleOf (f : Frame) (i : Nat) : Nat :=
  if f.interleaved then i / 2 else if i < (Shape.of f).chroma.1 then i else i - (Shape.of f).chroma.1

theorem chroma_pos {f : Frame} (hw : f.width ≠ 0) (hh : f.height ≠ 0) :
    0 < (Shape.of f).chroma.1 ∧ 0 < (Shape.of f).chroma.2 := by
  have h1 : 0 < (Shape.of f).horiz := Nat.lt_of_lt_of_le Nat.one_pos (Nat.le_max_right _ _)
  have h2 : 0 < (Shape.of f).vert := Nat.lt_of_lt_of_le Nat.one_pos (Nat.le_max_right _ _)
  refine ⟨Nat.div_pos ?_ h1, Nat.div_pos ?_ h2⟩
  · show (Shape.of f).horiz ≤ f.width + (Shape.of f).horiz - 1
    omega
  · show (Shape.of f).vert ≤ f.height + (Shape.of f).vert - 1
    omega

/-- Every read the comparison makes is in its slice. -/
structure Readable (f : Frame) : Prop where
  width : f.width ≠ 0
  height : f.height ≠ 0
  luma : ∀ row < f.height, ∀ col < f.width,
    (f.planes 0).offset + row * (f.planes 0).rowInc + col * (f.planes 0).colInc < (f.bytes 0).len
  run : f.interleaved = true → ∀ crow < (Shape.of f).chroma.2, ∀ i < 2 * (Shape.of f).chroma.1,
    min (f.planes 1).offset (f.planes 2).offset + crow * (f.planes 1).rowInc + i * 1 < (f.bytes 1).len
  each : f.interleaved = false → ∀ p : Fin 3, p ≠ 0 → ∀ crow < (Shape.of f).chroma.2, ∀ i < (Shape.of f).chroma.1,
    (f.planes p).offset + crow * (f.planes p).rowInc + i * (f.planes p).colInc < (f.bytes p).len

theorem readable_of_fits {f : Frame} (h : Previous.fits f (Shape.of f) = true) : Readable f := by
  have hle : ∀ (p : Plane) {rows run row col : Nat}, row < rows → col < run →
      p.offset + row * p.rowInc + col * p.colInc ≤ p.offset + (rows - 1) * p.rowInc + (run - 1) * max p.colInc 1 := by
    intro p rows run row col hr hc
    have h1 : row * p.rowInc ≤ (rows - 1) * p.rowInc := Nat.mul_le_mul_right _ (by omega)
    have h2 : col * p.colInc ≤ (run - 1) * max p.colInc 1 := Nat.mul_le_mul (by omega) (Nat.le_max_left _ _)
    omega
  unfold Previous.fits at h
  by_cases hz : (Shape.of f).width = 0 ∨ (Shape.of f).height = 0
  · rw [if_pos hz] at h
    cases h
  rw [if_neg hz] at h
  dsimp only at h
  split at h
  · cases h
  rename_i hl
  have hw : f.width ≠ 0 := fun h0 => hz (Or.inl h0)
  have hh : f.height ≠ 0 := fun h0 => hz (Or.inr h0)
  refine ⟨hw, hh, ?_, ?_, ?_⟩
  · intro row hr col hc
    have := hle (f.planes 0) hr hc
    exact Nat.lt_of_le_of_lt this (Nat.lt_of_not_le hl)
  · intro hi crow hr i hic
    have hi' : (Shape.of f).interleaved = true := hi
    rw [if_pos hi', decide_eq_true_eq] at h
    have h1 : crow * (f.planes 1).rowInc ≤ ((Shape.of f).chroma.2 - 1) * (f.planes 1).rowInc := Nat.mul_le_mul_right _ (by omega)
    omega
  · intro hi p hp crow hr i hic
    have hi' : ¬ (Shape.of f).interleaved = true := by
      show ¬ f.interleaved = true
      rw [hi]
      simp
    rw [if_neg hi', decide_eq_true_eq] at h
    have := hle (f.planes p) hr hic
    match p, hp with
    | 1, _ => exact Nat.lt_of_le_of_lt this h.1
    | 2, _ => exact Nat.lt_of_le_of_lt this h.2

theorem span_left {a b : Option (Nat × Nat)} {x y i : Nat} (h : a = some (x, y)) (h1 : x ≤ i) (h2 : i ≤ y) :
    ∃ x y, span a b = some (x, y) ∧ x ≤ i ∧ i ≤ y := by
  subst h
  cases b with
  | none => exact ⟨x, y, rfl, h1, h2⟩
  | some b => exact ⟨min x b.1, max y b.2, rfl, by omega, by omega⟩

theorem span_right {a b : Option (Nat × Nat)} {x y i : Nat} (h : b = some (x, y)) (h1 : x ≤ i) (h2 : i ≤ y) :
    ∃ x y, span a b = some (x, y) ∧ x ≤ i ∧ i ≤ y := by
  subst h
  cases a with
  | none => exact ⟨x, y, rfl, h1, h2⟩
  | some a => exact ⟨min a.1 x, max a.2 y, rfl, by omega, by omega⟩

theorem differsChroma_spec {f : Frame} (hf : Readable f) (crow grain : Nat) (cached : List UInt8) (hg : 0 < grain)
    (hcrow : crow < (Shape.of f).chroma.2) (hlen : cached.length = 2 * (Shape.of f).chroma.1) :
    ∃ moved, differsChroma f (Shape.of f) crow grain cached =
        some (moved, (List.range (2 * (Shape.of f).chroma.1)).map (f.chromaAt crow)) ∧
      ∀ i < 2 * (Shape.of f).chroma.1, cached[i]? ≠ some (f.chromaAt crow i) →
        ∃ a b, moved = some (a, b) ∧ a / (Shape.of f).perSample ≤ f.sampleOf i ∧ f.sampleOf i ≤ b / (Shape.of f).perSample := by
  have hpos := (chroma_pos hf.width hf.height).1
  generalize hcw : (Shape.of f).chroma.1 = cw at *
  cases hi : f.interleaved with
  | true =>
    have hi' : (Shape.of f).interleaved = true := hi
    have hps : (Shape.of f).perSample = 2 := by simp [Shape.perSample, hi']
    obtain ⟨ans, h, hin, -⟩ := differs_spec f.mem _ _ _ grain cached hg (by omega) (fun i h => by
      exact hf.run hi crow hcrow i (by rw [hcw, ← hlen]; exact h))
    refine ⟨ans, ?_, ?_⟩
    · have hmap : f.chromaAt crow = fun i =>
          f.mem ((f.bytes 1).ptr + (min (f.planes 1).offset (f.planes 2).offset + crow * (f.planes 1).rowInc + i * 1)) := by
        funext i
        simp only [Frame.chromaAt, hi, if_true]
      rw [differsChroma, if_pos hi', h, hlen, hmap]
    · intro i hil hne
      simp only [Frame.chromaAt, hi, if_true] at hne
      obtain ⟨a, b, hab, h1, h2⟩ := hin i (by omega) hne
      refine ⟨a, b, hab, ?_⟩
      simp only [Frame.sampleOf, hi, if_true, hps]
      omega
  | false =>
    have hi' : ¬ (Shape.of f).interleaved = true := by
      show ¬ f.interleaved = true
      simp [hi]
    have hps : (Shape.of f).perSample = 1 := by simp [Shape.perSample, hi']
    have ht : (cached.take cw).length = cw := by
      rw [List.length_take]
      omega
    have hd : (cached.drop cw).length = cw := by
      rw [List.length_drop]
      omega
    obtain ⟨a, ha, hina, -⟩ := differs_spec f.mem _ _ _ grain (cached.take cw) hg (by omega) (fun i h => by
      exact hf.each hi 1 (by decide) crow hcrow i (by rw [hcw]; omega))
    obtain ⟨b, hb, hinb, -⟩ := differs_spec f.mem _ _ _ grain (cached.drop cw) hg (by omega) (fun i h => by
      exact hf.each hi 2 (by decide) crow hcrow i (by rw [hcw]; omega))
    refine ⟨span a b, ?_, ?_⟩
    · have hsplit : (List.range (2 * cw)).map (f.chromaAt crow) =
          (List.range cw).map (f.sampleAt 1 crow) ++ (List.range cw).map (f.sampleAt 2 crow) := by
        apply List.ext_getElem (by simp; omega)
        intro j hj _
        have hj' : j < 2 * cw := by simpa using hj
        simp only [List.getElem_map, List.getElem_range, List.getElem_append, List.length_map, List.length_range,
          Frame.chromaAt, hi, Bool.false_eq_true, if_false, hcw]
        split <;> rfl
      rw [differsChroma, if_neg hi', hcw]
      simp only [ha, hb, Option.bind_eq_bind, Option.bind_some, ht, hd, hsplit]
      rfl
    · intro i hil hne
      simp only [Frame.chromaAt, hi, Bool.false_eq_true, if_false, hcw] at hne
      simp only [Frame.sampleOf, hi, Bool.false_eq_true, if_false, hcw, hps, Nat.div_one]
      by_cases hic : i < cw
      · rw [if_pos hic] at hne ⊢
        obtain ⟨x, y, hxy, h1, h2⟩ := hina i (by omega) (by rw [List.getElem?_take, if_pos hic]; exact hne)
        exact span_left hxy h1 h2
      · rw [if_neg hic] at hne ⊢
        obtain ⟨x, y, hxy, h1, h2⟩ := hinb (i - cw) (by omega) (by
          rw [List.getElem?_drop, show cw + (i - cw) = i by omega]
          exact hne)
        exact span_right hxy h1 h2

theorem compareChroma_spec {f : Frame} (hf : Readable f) (crow : Nat) {s : Buffer UInt8 × Changes}
    (hcrow : crow < (Shape.of f).chroma.2) (hlen : s.1.len = 2 * (Shape.of f).chroma.1 * (Shape.of f).chroma.2) :
    ∃ changed, compareChroma f (Shape.of f) crow s =
        some (s.1.put (crow * (2 * (Shape.of f).chroma.1)) ((List.range (2 * (Shape.of f).chroma.1)).map (f.chromaAt crow)),
          changed) ∧
      s.2.Grows changed ∧
      (f.height ≤ s.2.rows.length → ∀ i < 2 * (Shape.of f).chroma.1,
        s.1.get (crow * (2 * (Shape.of f).chroma.1) + i) ≠ f.chromaAt crow i →
        ∀ row col, row < f.height → col < f.width → row / (Shape.of f).vert = crow → col / (Shape.of f).horiz = f.sampleOf i →
          changed.Covers row col) := by
  have h1 : 0 < (Shape.of f).horiz := Nat.lt_of_lt_of_le Nat.one_pos (Nat.le_max_right _ _)
  have h2 : 0 < (Shape.of f).vert := Nat.lt_of_lt_of_le Nat.one_pos (Nat.le_max_right _ _)
  have hroom : crow * (2 * (Shape.of f).chroma.1) + 2 * (Shape.of f).chroma.1 ≤ s.1.len := by
    rw [hlen, ← Nat.succ_mul, Nat.mul_comm (2 * _)]
    exact Nat.mul_le_mul_right _ hcrow
  have hwin := Lib.Buffer.window?_eq hroom
  obtain ⟨moved, hm, hin⟩ := differsChroma_spec hf crow
    (max (columnGrain * (Shape.of f).perSample / (Shape.of f).horiz) 1)
    ((List.range (2 * (Shape.of f).chroma.1)).map fun i => s.1.get (crow * (2 * (Shape.of f).chroma.1) + i))
    (Nat.lt_of_lt_of_le Nat.one_pos (Nat.le_max_right _ _)) hcrow (by simp)
  have hassoc : crow * 2 * (Shape.of f).chroma.1 = crow * (2 * (Shape.of f).chroma.1) := Nat.mul_assoc _ _ _
  cases moved with
  | none =>
    refine ⟨s.2, by simp only [compareChroma, hassoc, hwin, hm, Option.bind_eq_bind, Option.bind_some], Changes.Grows.refl _, ?_⟩
    intro _ i hi hne
    obtain ⟨a, b, hab, -⟩ := hin i hi (by simpa [hi] using hne)
    cases hab
  | some ab =>
    obtain ⟨a, b⟩ := ab
    refine ⟨_, by simp only [compareChroma, hassoc, hwin, hm, Option.bind_eq_bind, Option.bind_some]; rfl, markRows_grows _ _ _ _ _, ?_⟩
    intro hrows i hi hne row col hr hc hv hh
    obtain ⟨a', b', hab, ha, hb⟩ := hin i hi (by simpa [hi] using hne)
    cases hab
    have hrow := Nat.div_add_mod row (Shape.of f).vert
    have hrm := Nat.mod_lt row h2
    have hcol := Nat.div_add_mod col (Shape.of f).horiz
    have hcm := Nat.mod_lt col h1
    rw [hv, Nat.mul_comm] at hrow
    rw [hh, Nat.mul_comm] at hcol
    have hsucc : (crow + 1) * (Shape.of f).vert = crow * (Shape.of f).vert + (Shape.of f).vert := Nat.succ_mul _ _
    have hr' : row < (Shape.of f).height := hr
    apply markRows_covers (by omega) (by omega) (by omega)
    · have := Nat.mul_le_mul_right (Shape.of f).horiz ha
      omega
    · have := Nat.mul_le_mul_right (Shape.of f).horiz hb
      have hs : (b / (Shape.of f).perSample + 1) * (Shape.of f).horiz =
          b / (Shape.of f).perSample * (Shape.of f).horiz + (Shape.of f).horiz := Nat.succ_mul _ _
      have hc' : col < (Shape.of f).width := hc
      omega

theorem compareLuma_spec {f : Frame} (hf : Readable f) (row : Nat) {s : Buffer UInt8 × Changes} (hrow : row < f.height)
    (hlen : s.1.len = f.width * f.height) :
    ∃ changed, compareLuma f (Shape.of f) row s =
        some (s.1.put (row * f.width) ((List.range f.width).map (f.sampleAt 0 row)), changed) ∧
      s.2.Grows changed ∧
      (f.height ≤ s.2.rows.length → ∀ col < f.width, s.1.get (row * f.width + col) ≠ f.sampleAt 0 row col →
        changed.Covers row col) := by
  have hroom : row * f.width + f.width ≤ s.1.len := by
    rw [hlen, ← Nat.succ_mul, Nat.mul_comm f.width]
    exact Nat.mul_le_mul_right _ hrow
  have hwin := Lib.Buffer.window?_eq hroom
  have hwid : (Shape.of f).width = f.width := rfl
  obtain ⟨ans, hd, hin, -⟩ := differs_spec f.mem (f.bytes 0)
    ((f.planes 0).offset + row * (f.planes 0).rowInc) (f.planes 0).colInc columnGrain
    ((List.range f.width).map fun i => s.1.get (row * f.width + i)) (by decide)
    (by simpa using Nat.pos_of_ne_zero hf.width) (fun i hi => hf.luma row hrow i (by simpa using hi))
  rw [List.length_map, List.length_range] at hd hin
  cases ans with
  | none =>
    refine ⟨s.2, by simp only [compareLuma, hwid, hwin, hd, Option.bind_eq_bind, Option.bind_some]; rfl, Changes.Grows.refl _, ?_⟩
    intro _ col hc hne
    obtain ⟨a, b, hab, -⟩ := hin col hc (by simpa [hc, Frame.sampleAt] using hne)
    cases hab
  | some ab =>
    obtain ⟨a, b⟩ := ab
    refine ⟨_, by simp only [compareLuma, hwid, hwin, hd, Option.bind_eq_bind, Option.bind_some]; rfl, Changes.mark_grows _ _ _ _, ?_⟩
    intro hrows col hc hne
    obtain ⟨a', b', hab, h1, h2⟩ := hin col hc (by simpa [hc, Frame.sampleAt] using hne)
    cases hab
    exact Changes.mark_covers (by omega) h1 (by omega)

/-- A packed plane with its rows below `k` brought up to date. -/
structure RowsBefore (run : Nat) (src : Nat → Nat → UInt8) (old : Buffer UInt8) (k : Nat) (b : Buffer UInt8) : Prop where
  len : b.len = old.len
  done : ∀ r < k, ∀ i < run, b.get (r * run + i) = src r i
  left : ∀ r, k ≤ r → ∀ i < run, b.get (r * run + i) = old.get (r * run + i)

theorem RowsBefore.put {run k : Nat} {src : Nat → Nat → UInt8} {old b : Buffer UInt8} (h : RowsBefore run src old k b) :
    RowsBefore run src old (k + 1) (b.put (k * run) ((List.range run).map (src k))) := by
  have hl : ((List.range run).map (src k)).length = run := by simp
  have hout : ∀ r i, r ≠ k → i < run →
      (b.put (k * run) ((List.range run).map (src k))).get (r * run + i) = b.get (r * run + i) := by
    intro r i hr hi
    apply Lib.Buffer.put_get_outside
    rw [hl, ← Nat.succ_mul]
    rcases Nat.lt_or_gt_of_ne hr with hr | hr
    · have := Nat.mul_le_mul_right run (Nat.succ_le_of_lt hr)
      rw [Nat.succ_mul] at this
      omega
    · have := Nat.mul_le_mul_right run (Nat.succ_le_of_lt hr)
      omega
  refine ⟨h.len, ?_, ?_⟩
  · intro r hr i hi
    by_cases hrk : r = k
    · subst hrk
      rw [Lib.Buffer.put_get_inside _ _ _ (by rw [hl]; exact hi)]
      simp
    · rw [hout r i hrk hi]
      exact h.done r (by omega) i hi
  · intro r hr i hi
    rw [hout r i (by omega) hi]
    exact h.left r (by omega) i hi

/-- The copy has room for the planes its shape says. -/
def Previous.WellFormed (p : Previous) : Prop :=
  ∀ s, p.shape = some s → p.luma.len = s.width * s.height ∧ p.chroma.len = 2 * s.chroma.1 * s.chroma.2

/-- The copy is a frame's samples. -/
structure Previous.Keeps (p : Previous) (f : Frame) : Prop where
  shape : p.shape = some (Shape.of f)
  luma : ∀ row < f.height, ∀ col < f.width, p.luma.get (row * f.width + col) = f.sampleAt 0 row col
  chroma : ∀ crow < (Shape.of f).chroma.2, ∀ i < 2 * (Shape.of f).chroma.1,
    p.chroma.get (crow * (2 * (Shape.of f).chroma.1) + i) = f.chromaAt crow i

/-- What a comparison marks of a frame against a copy of its shape: every pixel one of whose
samples differs. -/
structure Marks (p : Previous) (f : Frame) (changed : Changes) : Prop where
  luma : ∀ row < f.height, ∀ col < f.width, p.luma.get (row * f.width + col) ≠ f.sampleAt 0 row col → changed.Covers row col
  chroma : ∀ i < 2 * (Shape.of f).chroma.1, ∀ row < f.height, ∀ col < f.width, col / (Shape.of f).horiz = f.sampleOf i →
    p.chroma.get (row / (Shape.of f).vert * (2 * (Shape.of f).chroma.1) + i) ≠ f.chromaAt (row / (Shape.of f).vert) i →
    changed.Covers row col

theorem row_div_lt {f : Frame} {row : Nat} (h : row < f.height) : row / (Shape.of f).vert < (Shape.of f).chroma.2 := by
  have h2 : 0 < (Shape.of f).vert := Nat.lt_of_lt_of_le Nat.one_pos (Nat.le_max_right _ _)
  have hle : row / (Shape.of f).vert + 1 ≤ (row + (Shape.of f).vert) / (Shape.of f).vert := by
    rw [Nat.add_div_right _ h2]
  refine Nat.lt_of_lt_of_le (Nat.lt_succ_self _) (Nat.le_trans hle (Nat.div_le_div_right ?_))
  show row + (Shape.of f).vert ≤ f.height + (Shape.of f).vert - 1
  omega

/-- The two loops of a comparison, over a copy with room for the frame. -/
theorem compare_loops {f : Frame} (hf : Readable f) (p : Previous) (changed : Changes)
    (hl : p.luma.len = f.width * f.height) (hc : p.chroma.len = 2 * (Shape.of f).chroma.1 * (Shape.of f).chroma.2) :
    ∃ chroma changed₁ luma changed₂,
      loop (compareChroma f (Shape.of f)) 0 (Shape.of f).chroma.2 (p.chroma, changed) = some (chroma, changed₁) ∧
      loop (compareLuma f (Shape.of f)) 0 f.height (p.luma, changed₁) = some (luma, changed₂) ∧
      RowsBefore (2 * (Shape.of f).chroma.1) f.chromaAt p.chroma (Shape.of f).chroma.2 chroma ∧
      RowsBefore f.width (f.sampleAt 0) p.luma f.height luma ∧ changed.Grows changed₂ ∧
      (f.height ≤ changed.rows.length → Marks p f changed₂) := by
  obtain ⟨⟨chroma, changed₁⟩, h1, hr1, hg1, hm1⟩ := Lib.loop_spec (f := compareChroma f (Shape.of f))
    (fun k s => RowsBefore (2 * (Shape.of f).chroma.1) f.chromaAt p.chroma k s.1 ∧ changed.Grows s.2 ∧
      (f.height ≤ changed.rows.length → ∀ i < 2 * (Shape.of f).chroma.1, ∀ row < f.height, ∀ col < f.width,
        row / (Shape.of f).vert < k → col / (Shape.of f).horiz = f.sampleOf i →
        p.chroma.get (row / (Shape.of f).vert * (2 * (Shape.of f).chroma.1) + i) ≠ f.chromaAt (row / (Shape.of f).vert) i →
        s.2.Covers row col))
    (n := (Shape.of f).chroma.2) (k := 0) (s := (p.chroma, changed))
    ⟨⟨rfl, nofun, fun _ _ _ _ => rfl⟩, Changes.Grows.refl _, fun _ _ _ _ _ _ _ h => absurd h (Nat.not_lt_zero _)⟩
    (by
      rintro k s - hk ⟨hr, hg, hm⟩
      obtain ⟨c, hcmp, hgrow, hmark⟩ := compareChroma_spec hf k (s := s) (by omega) (by rw [hr.len, hc])
      refine ⟨_, hcmp, hr.put, hg.trans hgrow, ?_⟩
      intro hrows i hi row hrow col hcol hlt hh hne
      by_cases hk' : row / (Shape.of f).vert = k
      · apply hmark (by rw [hg.length]; exact hrows) i hi _ row col hrow hcol hk' hh
        rw [hr.left k (Nat.le_refl _) i hi, ← hk']
        exact hne
      · exact hgrow.covers _ _ (hm hrows i hi row hrow col hcol (by omega) hh hne))
  obtain ⟨⟨luma, changed₂⟩, h2, hr2, hg2, hm2⟩ := Lib.loop_spec (f := compareLuma f (Shape.of f))
    (fun k s => RowsBefore f.width (f.sampleAt 0) p.luma k s.1 ∧ changed₁.Grows s.2 ∧
      (f.height ≤ changed.rows.length → ∀ row < k, ∀ col < f.width,
        p.luma.get (row * f.width + col) ≠ f.sampleAt 0 row col → s.2.Covers row col))
    (n := f.height) (k := 0) (s := (p.luma, changed₁))
    ⟨⟨rfl, nofun, fun _ _ _ _ => rfl⟩, Changes.Grows.refl _, fun _ row h => absurd h (Nat.not_lt_zero row)⟩
    (by
      rintro k s - hk ⟨hr, hg, hm⟩
      obtain ⟨c, hcmp, hgrow, hmark⟩ := compareLuma_spec hf k (s := s) (by omega) (by rw [hr.len, hl])
      refine ⟨_, hcmp, hr.put, hg.trans hgrow, ?_⟩
      intro hrows row hrow col hcol hne
      by_cases hk' : row = k
      · subst hk'
        apply hmark (by rw [hg.length, hg1.length]; exact hrows) col hcol
        rw [hr.left row (Nat.le_refl _) col hcol]
        exact hne
      · exact hgrow.covers _ _ (hm hrows row (by omega) col hcol hne))
  rw [Nat.zero_add] at hr1 hr2 hm1 hm2
  refine ⟨chroma, changed₁, luma, changed₂, h1, h2, hr1, hr2, hg1.trans hg2, ?_⟩
  intro hrows
  refine ⟨hm2 hrows, ?_⟩
  intro i hi row hrow col hcol hh hne
  exact hg2.covers _ _ (hm1 hrows i hi row hrow col hcol (row_div_lt hrow) hh hne)

/-- What a comparison does, whatever the frame: it starts again without a copy, or with a
new one, everything marked; or it marks what differs from the copy it had. -/
theorem compare_spec {p : Previous} (hp : p.WellFormed) (f : Frame) (changed : Changes) :
    ∃ p' changed', p.compare f changed = some (p', changed') ∧ p'.WellFormed ∧
      ((p'.shape = none ∧ changed' = changed.all f.width f.height) ∨
        (p'.Keeps f ∧ (changed.all f.width f.height).Grows changed') ∨
        (p.shape = some (Shape.of f) ∧ p'.Keeps f ∧ changed.Grows changed' ∧
          (f.height ≤ changed.rows.length → Marks p f changed'))) := by
  cases hfit : Previous.fits f (Shape.of f) with
  | false =>
    refine ⟨{ p with shape := none }, changed.all f.width f.height, by simp [Previous.compare, hfit], nofun, ?_⟩
    exact Or.inl ⟨rfl, rfl⟩
  | true =>
    have hf := readable_of_fits hfit
    have hfit' : ¬ Previous.fits f (Shape.of f) = false := by simp [hfit]
    by_cases hs : p.shape = some (Shape.of f)
    · obtain ⟨hl, hc⟩ := hp _ hs
      obtain ⟨chroma, c₁, luma, c₂, h1, h2, hr1, hr2, hg, hm⟩ := compare_loops hf p changed hl hc
      refine ⟨{ p with luma := luma, chroma := chroma }, c₂, ?_, ?_, ?_⟩
      · unfold Previous.compare
        dsimp only
        rw [if_neg hfit', if_neg (not_not.mpr hs)]
        simp only [h1, h2, Option.bind_eq_bind, Option.bind_some]
      · intro s hs'
        cases hs.symm.trans hs'
        exact ⟨hr2.len.trans hl, hr1.len.trans hc⟩
      · exact Or.inr (Or.inr ⟨hs, ⟨hs, hr2.done, hr1.done⟩, hg, hm⟩)
    · generalize hnew : (⟨⟨f.width * f.height, fun _ => 0⟩,
        ⟨2 * (Shape.of f).chroma.1 * (Shape.of f).chroma.2, fun _ => 0⟩, some (Shape.of f)⟩ : Previous) = q
      have hl : q.luma.len = f.width * f.height := by rw [← hnew]
      have hc : q.chroma.len = 2 * (Shape.of f).chroma.1 * (Shape.of f).chroma.2 := by rw [← hnew]
      have hq : q.shape = some (Shape.of f) := by rw [← hnew]
      obtain ⟨chroma, c₁, luma, c₂, h1, h2, hr1, hr2, hg, -⟩ := compare_loops hf q (changed.all f.width f.height) hl hc
      refine ⟨{ q with luma := luma, chroma := chroma }, c₂, ?_, ?_, ?_⟩
      · unfold Previous.compare
        dsimp only
        rw [if_neg hfit', if_pos hs, hnew]
        simp only [h1, h2, Option.bind_eq_bind, Option.bind_some]
      · intro s hs'
        cases hq.symm.trans hs'
        exact ⟨hr2.len.trans hl, hr1.len.trans hc⟩
      · exact Or.inr (Or.inl ⟨⟨hq, hr2.done, hr1.done⟩, hg⟩)

end Vento.Video
