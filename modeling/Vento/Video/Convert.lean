import Mathlib.Algebra.Order.Group.Unbundled.Int
import Mathlib.Algebra.Ring.Int.Defs
import Mathlib.Algebra.Ring.Nat
import Mathlib.Data.List.Basic
import Vento.Lib.Collect
/-!
# 4:2:0 planes to words

`media/video/convert.rs`: where the planes of a decoded picture are in the bytes it was
handed over in, and the conversion of a row of it, a pixel at a time. A slice is an address
and a length in a memory of bytes, since the vectorised conversion and the comparison ask
where two slices are; reading one past its end is a panic, `none` here. Sizes and offsets
are natural numbers: a sum of them that a `usize` does not hold is a panic of the check
that adds them up, so none that is accepted is.
-/

namespace Vento.Video

abbrev Memory := Nat → UInt8

/-- `&[u8]`. -/
structure Slice where
  ptr : Nat
  len : Nat
deriving DecidableEq, Repr

namespace Slice

/-- `s[i]`. -/
def get? (m : Memory) (s : Slice) (i : Nat) : Option UInt8 := if i < s.len then some (m (s.ptr + i)) else none

/-- `&s[n..]`. -/
def from? (s : Slice) (n : Nat) : Option Slice := if n ≤ s.len then some ⟨s.ptr + n, s.len - n⟩ else none

end Slice

/-- Where one plane is in its bytes, and the byte steps for a row and a column of it. -/
structure Plane where
  offset : Nat
  colInc : Nat
  rowInc : Nat
  horizSubsampling : Nat
  vertSubsampling : Nat
deriving DecidableEq, Repr

instance neZero_planes : NeZero (3 : Nat) := ⟨by decide⟩

/-- One decoded picture; `0`, `1` and `2` are Y, U and V. -/
structure Frame where
  mem : Memory
  bytes : Fin 3 → Slice
  planes : Fin 3 → Plane
  width : Nat
  height : Nat
  bt709 : Bool
  fullRange : Bool

/-- The three increments a row conversion needs. -/
structure Layout where
  yColInc : Nat
  uvColInc : Nat
  horizSubsampling : Nat
deriving DecidableEq, Repr

/-- Each plane's bytes from a row's first sample on. -/
structure Row where
  y : Slice
  u : Slice
  v : Slice
deriving DecidableEq, Repr

namespace Frame

/-- The place of a plane's last sample of the visible picture. -/
def last (f : Frame) (i : Fin 3) : Nat :=
  (f.planes i).offset + (f.height - 1) / (f.planes i).vertSubsampling * (f.planes i).rowInc +
    (f.width - 1) / (f.planes i).horizSubsampling * (f.planes i).colInc

/-- Whether every sample of the visible picture is inside the bytes it is said to be in. -/
def fits (f : Frame) : Bool :=
  if f.width = 0 ∨ f.height = 0 then false
  else decide (∀ i, (f.planes i).horizSubsampling ≠ 0 ∧ (f.planes i).vertSubsampling ≠ 0 ∧ f.last i < (f.bytes i).len)

/-- U and V in one run of bytes, a byte apart. -/
def interleaved (f : Frame) : Bool :=
  f.bytes 1 = f.bytes 2 ∧ (f.planes 1).colInc = 2 ∧ (f.planes 2).colInc = 2 ∧ (f.planes 1).rowInc = (f.planes 2).rowInc ∧
    ((f.planes 2).offset = (f.planes 1).offset + 1 ∨ (f.planes 1).offset = (f.planes 2).offset + 1)

def layout (f : Frame) : Layout := ⟨(f.planes 0).colInc, (f.planes 1).colInc, (f.planes 1).horizSubsampling⟩

/-- Where a row starts in a plane. -/
def rowAt (f : Frame) (row : Nat) (i : Fin 3) : Option Slice :=
  (f.bytes i).from? ((f.planes i).offset + row / (f.planes i).vertSubsampling * (f.planes i).rowInc)

def row (f : Frame) (row : Nat) : Option Row := do
  let y ← f.rowAt row 0
  let u ← f.rowAt row 1
  let v ← f.rowAt row 2
  some ⟨y, u, v⟩

end Frame

/-- Y, then the four chroma terms, in 1/256ths, and what Y is offset by. -/
structure Coefficients where
  y : Int
  rv : Int
  gu : Int
  gv : Int
  bu : Int
  yOffset : Int
deriving DecidableEq, Repr

def coefficients (bt709 fullRange : Bool) : Coefficients :=
  match fullRange, bt709 with
  | true, true => ⟨256, 403, -48, -120, 475, 0⟩
  | true, false => ⟨256, 359, -88, -183, 454, 0⟩
  | false, true => ⟨298, 459, -55, -136, 541, -16⟩
  | false, false => ⟨298, 409, -100, -208, 516, -16⟩

def clamp (v : Int) : Nat := (max 0 (min v 255)).toNat

/-- The word of a pixel from its luma and chroma terms, red at shift 0. -/
def word (yy rv gu bu : Int) : Nat :=
  clamp ((yy + rv) >>> (8 : Nat)) ||| clamp ((yy + gu) >>> (8 : Nat)) <<< 8 ||| clamp ((yy + bu) >>> (8 : Nat)) <<< 16 |||
    0xff000000

/-- What the loop over a row has in hand. -/
structure Cursor where
  yi : Nat
  ui : Nat
  vi : Nat
  chroma : Nat
  rv : Int
  gu : Int
  bu : Int
deriving DecidableEq, Repr

/-- The chroma terms of the next sample, where the last one's pixels are done. -/
def Cursor.load (m : Memory) (row : Row) (l : Layout) (c : Coefficients) (s : Cursor) : Option Cursor :=
  if s.chroma = 0 then do
    let u ← row.u.get? m s.ui
    let v ← row.v.get? m s.vi
    let uu : Int := u.toNat - 128
    let vv : Int := v.toNat - 128
    some { s with
      rv := c.rv * vv + 128
      gu := c.gu * uu + c.gv * vv + 128
      bu := c.bu * uu + 128
      ui := s.ui + l.uvColInc
      vi := s.vi + l.uvColInc
      chroma := l.horizSubsampling }
  else some s

/-- `n` pixels of a row. -/
def convertFrom (m : Memory) (row : Row) (l : Layout) (c : Coefficients) : Nat → Cursor → Option (List Nat)
  | 0, _ => some []
  | n + 1, s => do
    let s ← s.load m row l c
    let y ← row.y.get? m s.yi
    let yy := (y.toNat + c.yOffset) * c.y
    let rest ← convertFrom m row l c n { s with chroma := s.chroma - 1, yi := s.yi + l.yColInc }
    some (word yy s.rv s.gu s.bu :: rest)

/-- One row into `out`, from `col` to the end of it; a division by zero where the
subsampling is none. -/
def rowScalar (m : Memory) (row : Row) (l : Layout) (out : List Nat) (col w : Nat) (c : Coefficients) : Option (List Nat) :=
  if l.horizSubsampling = 0 then none
  else do
    let n := min w out.length - col
    let at_ := col / l.horizSubsampling * l.uvColInc
    let words ← convertFrom m row l c n ⟨col * l.yColInc, at_, at_, 0, 0, 0, 0⟩
    some (out.take col ++ words ++ out.drop (col + n))

/-! ## A row in closed form -/

open Lib (collect)

/-- The word of a pixel from its samples. -/
def pixel (c : Coefficients) (y u v : UInt8) : Nat :=
  word ((y.toNat + c.yOffset) * c.y) (c.rv * (v.toNat - 128) + 128)
    (c.gu * (u.toNat - 128) + c.gv * (v.toNat - 128) + 128) (c.bu * (u.toNat - 128) + 128)

/-- Pixel `k` of a row, its samples where the increments say. -/
def pixelAt (m : Memory) (row : Row) (l : Layout) (c : Coefficients) (k : Nat) : Option Nat := do
  let u ← row.u.get? m (k / l.horizSubsampling * l.uvColInc)
  let v ← row.v.get? m (k / l.horizSubsampling * l.uvColInc)
  let y ← row.y.get? m (k * l.yColInc)
  some (pixel c y u v)

/-- The same, wherever its samples are. -/
def pixelOf (m : Memory) (row : Row) (l : Layout) (c : Coefficients) (k : Nat) : Nat :=
  pixel c (m (row.y.ptr + k * l.yColInc)) (m (row.u.ptr + k / l.horizSubsampling * l.uvColInc))
    (m (row.v.ptr + k / l.horizSubsampling * l.uvColInc))

/-- Pixel `k`'s samples are all in the row's slices. -/
def Row.Holds (row : Row) (l : Layout) (k : Nat) : Prop :=
  k / l.horizSubsampling * l.uvColInc < row.u.len ∧ k / l.horizSubsampling * l.uvColInc < row.v.len ∧
    k * l.yColInc < row.y.len

theorem pixelAt_of_holds (m : Memory) {row : Row} {l : Layout} (c : Coefficients) {k : Nat} (h : row.Holds l k) :
    pixelAt m row l c k = some (pixelOf m row l c k) := by
  obtain ⟨hu, hv, hy⟩ := h
  simp [pixelAt, Slice.get?, hu, hv, hy, pixelOf]

theorem holds_of_pixelAt {m : Memory} {row : Row} {l : Layout} {c : Coefficients} {k : Nat}
    (h : (pixelAt m row l c k).isSome) : row.Holds l k := by
  by_cases hu : k / l.horizSubsampling * l.uvColInc < row.u.len
  · by_cases hv : k / l.horizSubsampling * l.uvColInc < row.v.len
    · by_cases hy : k * l.yColInc < row.y.len
      · exact ⟨hu, hv, hy⟩
      · simp [pixelAt, Slice.get?, hu, hv, hy] at h
    · simp [pixelAt, Slice.get?, hu, hv] at h
  · simp [pixelAt, Slice.get?, hu] at h

/-- What the loop has in hand before pixel `k`: nothing where a chroma sample's pixels
start, and else that sample's terms and how many of its pixels are left. -/
structure Cursor.Before (m : Memory) (row : Row) (l : Layout) (c : Coefficients) (k : Nat) (s : Cursor) : Prop where
  yi : s.yi = k * l.yColInc
  vi : s.vi = s.ui
  start : k % l.horizSubsampling = 0 → s.chroma = 0 ∧ s.ui = k / l.horizSubsampling * l.uvColInc
  inside : k % l.horizSubsampling ≠ 0 →
    s.chroma = l.horizSubsampling - k % l.horizSubsampling ∧ s.ui = (k / l.horizSubsampling + 1) * l.uvColInc ∧
      ∃ u v, row.u.get? m (k / l.horizSubsampling * l.uvColInc) = some u ∧
        row.v.get? m (k / l.horizSubsampling * l.uvColInc) = some v ∧
        s.rv = c.rv * (v.toNat - 128) + 128 ∧ s.gu = c.gu * (u.toNat - 128) + c.gv * (v.toNat - 128) + 128 ∧
        s.bu = c.bu * (u.toNat - 128) + 128

/-- What it has in hand once pixel `k`'s chroma is loaded. -/
structure Cursor.Loaded (l : Layout) (c : Coefficients) (k : Nat) (u v : UInt8) (s : Cursor) : Prop where
  yi : s.yi = k * l.yColInc
  vi : s.vi = s.ui
  ui : s.ui = (k / l.horizSubsampling + 1) * l.uvColInc
  chroma : s.chroma = l.horizSubsampling - k % l.horizSubsampling
  rv : s.rv = c.rv * (v.toNat - 128) + 128
  gu : s.gu = c.gu * (u.toNat - 128) + c.gv * (v.toNat - 128) + 128
  bu : s.bu = c.bu * (u.toNat - 128) + 128

section
variable {m : Memory} {row : Row} {l : Layout} {c : Coefficients} {k : Nat} {s : Cursor}

theorem Cursor.Before.load_none (h : s.Before m row l c k)
    (hn : row.u.get? m (k / l.horizSubsampling * l.uvColInc) = none ∨
      row.v.get? m (k / l.horizSubsampling * l.uvColInc) = none) : s.load m row l c = none := by
  by_cases hk : k % l.horizSubsampling = 0
  · obtain ⟨hc, hu⟩ := h.start hk
    have hv := h.vi
    rcases hn with hn | hn
    · simp [Cursor.load, hc, hu, hn]
    · simp [Cursor.load, hc, hv, hu, hn]
  · obtain ⟨-, -, u, v, hu, hv, -⟩ := h.inside hk
    rcases hn with hn | hn
    · simp [hn] at hu
    · simp [hn] at hv

theorem Cursor.Before.load_some (hs : 0 < l.horizSubsampling) (h : s.Before m row l c k) {u v : UInt8}
    (hu : row.u.get? m (k / l.horizSubsampling * l.uvColInc) = some u)
    (hv : row.v.get? m (k / l.horizSubsampling * l.uvColInc) = some v) :
    ∃ t, s.load m row l c = some t ∧ t.Loaded l c k u v := by
  by_cases hk : k % l.horizSubsampling = 0
  · obtain ⟨hc, hui⟩ := h.start hk
    have hvi := h.vi
    rw [← hui] at hu hv
    rw [← hvi] at hv
    refine ⟨⟨s.yi, s.ui + l.uvColInc, s.vi + l.uvColInc, l.horizSubsampling, c.rv * (v.toNat - 128) + 128,
      c.gu * (u.toNat - 128) + c.gv * (v.toNat - 128) + 128, c.bu * (u.toNat - 128) + 128⟩, ?_, ?_⟩
    · simp only [Cursor.load, hc, if_true, hu, hv, Option.bind_eq_bind, Option.bind_some]
    · constructor <;> simp only [h.yi, hvi, hui, hk, Nat.sub_zero, Nat.add_mul, Nat.one_mul]
  · obtain ⟨hc, hui, u', v', hu', hv', hrv, hgu, hbu⟩ := h.inside hk
    cases hu.symm.trans hu'
    cases hv.symm.trans hv'
    have hlt := Nat.mod_lt k hs
    refine ⟨s, ?_, h.yi, h.vi, hui, hc, hrv, hgu, hbu⟩
    have h0 : s.chroma ≠ 0 := by omega
    simp [Cursor.load, h0]

/-- A pixel done, the loop is before the next. -/
theorem Cursor.Loaded.next (hs : 0 < l.horizSubsampling) {u v : UInt8} (h : s.Loaded l c k u v)
    (hu : row.u.get? m (k / l.horizSubsampling * l.uvColInc) = some u)
    (hv : row.v.get? m (k / l.horizSubsampling * l.uvColInc) = some v) :
    Cursor.Before m row l c (k + 1) { s with chroma := s.chroma - 1, yi := s.yi + l.yColInc } := by
  have hlt := Nat.mod_lt k hs
  have hdm := Nat.div_add_mod k l.horizSubsampling
  by_cases hk : k % l.horizSubsampling + 1 = l.horizSubsampling
  · -- the sample's last pixel
    have hkm : k + 1 = l.horizSubsampling * (k / l.horizSubsampling + 1) := by
      rw [Nat.mul_add]
      omega
    have hd : (k + 1) / l.horizSubsampling = k / l.horizSubsampling + 1 := by
      rw [hkm, Nat.mul_div_cancel_left _ hs]
    have hm : (k + 1) % l.horizSubsampling = 0 := by rw [hkm, Nat.mul_mod_right]
    have hc := h.chroma
    refine ⟨by simp [h.yi, Nat.add_mul], h.vi, ?_, fun hne => absurd hm hne⟩
    intro _
    refine ⟨?_, by rw [hd]; exact h.ui⟩
    show s.chroma - 1 = 0
    omega
  · have hd : (k + 1) / l.horizSubsampling = k / l.horizSubsampling := by
      apply Nat.div_eq_of_lt_le
      · rw [Nat.mul_comm]
        omega
      · rw [Nat.mul_comm, Nat.mul_add]
        omega
    have hm : (k + 1) % l.horizSubsampling = k % l.horizSubsampling + 1 := by
      have hdm' := Nat.div_add_mod (k + 1) l.horizSubsampling
      rw [hd] at hdm'
      omega
    have hc := h.chroma
    refine ⟨by simp [h.yi, Nat.add_mul], h.vi, fun h0 => by omega, ?_⟩
    intro _
    rw [hd, hm]
    refine ⟨?_, h.ui, u, v, hu, hv, h.rv, h.gu, h.bu⟩
    show s.chroma - 1 = _
    omega

theorem convertFrom_eq (hs : 0 < l.horizSubsampling) :
    ∀ (n k : Nat) (s : Cursor), s.Before m row l c k → convertFrom m row l c n s = collect (pixelAt m row l c) k n := by
  intro n
  induction n with
  | zero => intros; rfl
  | succ n ih =>
    intro k s h
    cases hu : row.u.get? m (k / l.horizSubsampling * l.uvColInc) with
    | none => simp [convertFrom, collect, pixelAt, h.load_none (Or.inl hu), hu]
    | some u =>
      cases hv : row.v.get? m (k / l.horizSubsampling * l.uvColInc) with
      | none => simp [convertFrom, collect, pixelAt, h.load_none (Or.inr hv), hu, hv]
      | some v =>
        obtain ⟨t, ht, hl⟩ := h.load_some hs hu hv
        cases hy : row.y.get? m (k * l.yColInc) with
        | none => simp [convertFrom, collect, pixelAt, ht, hl.yi, hu, hv, hy]
        | some y =>
          have hrest := ih (k + 1) _ (hl.next hs hu hv)
          simp only [convertFrom, collect, pixelAt, ht, hl.yi, hu, hv, hy, Option.bind_eq_bind, Option.bind_some]
          rw [hl.yi] at hrest
          rw [hrest, hl.rv, hl.gu, hl.bu]
          rfl

/-- The row conversion, from the first pixel of a chroma sample on: each pixel from its own
samples. -/
theorem rowScalar_eq {out : List Nat} {col w : Nat} (hs : 0 < l.horizSubsampling) (hcol : col % l.horizSubsampling = 0) :
    rowScalar m row l out col w c =
      (collect (pixelAt m row l c) col (min w out.length - col)).map
        fun words => out.take col ++ words ++ out.drop (col + (min w out.length - col)) := by
  have hb : Cursor.Before m row l c col
      ⟨col * l.yColInc, col / l.horizSubsampling * l.uvColInc, col / l.horizSubsampling * l.uvColInc, 0, 0, 0, 0⟩ :=
    ⟨rfl, rfl, fun _ => ⟨rfl, rfl⟩, fun h => absurd hcol h⟩
  have h0 : l.horizSubsampling ≠ 0 := by omega
  simp only [rowScalar, h0, if_false, convertFrom_eq hs _ _ _ hb]
  cases collect (pixelAt m row l c) col (min w out.length - col) <;> rfl

/-- The row conversion goes through where every pixel's samples are in the slices. -/
theorem rowScalar_isSome_iff {out : List Nat} {col w : Nat} (hs : 0 < l.horizSubsampling)
    (hcol : col % l.horizSubsampling = 0) :
    (rowScalar m row l out col w c).isSome ↔ ∀ k, col ≤ k → k < min w out.length → row.Holds l k := by
  rw [rowScalar_eq hs hcol, Option.isSome_map, Lib.collect_isSome_iff]
  constructor
  · intro h k hk hw
    have := h (k - col) (by omega)
    rw [Nat.add_sub_cancel' hk] at this
    exact holds_of_pixelAt this
  · intro h i hi
    rw [pixelAt_of_holds m c (h (col + i) (by omega) (by omega))]
    rfl

/-- And then writes each pixel. -/
theorem rowScalar_eq_some {out : List Nat} {col w : Nat} (hs : 0 < l.horizSubsampling)
    (hcol : col % l.horizSubsampling = 0) (h : ∀ k, col ≤ k → k < min w out.length → row.Holds l k) :
    rowScalar m row l out col w c =
      some (out.take col ++ (List.range' col (min w out.length - col)).map (pixelOf m row l c) ++
        out.drop (col + (min w out.length - col))) := by
  have hc : collect (pixelAt m row l c) col (min w out.length - col) =
      some ((List.range' col (min w out.length - col)).map (pixelOf m row l c)) := by
    apply (Lib.collect_eq_some_iff _ _ _ _).mpr
    refine ⟨by simp, ?_⟩
    intro i hi
    rw [pixelAt_of_holds m c (h (col + i) (by omega) (by omega))]
    simp [hi]
  rw [rowScalar_eq hs hcol, hc]
  rfl

end

end Vento.Video
