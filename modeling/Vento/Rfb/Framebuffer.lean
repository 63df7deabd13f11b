import Vento.Rfb.Decode
/-!
# The framebuffer

`rfb/src/framebuffer.rs`, and `read_region` over it. Slices are checked: an
operation that gives a result has touched only what lies in its buffers, and
`none` is a check that failed, before anything was touched there.

`usize` wraps at 2^64. The sums and products that can get there for some
arguments are wrapped below; the others stay below the number of pixels.
-/

namespace Vento.Rfb

open Vento.Lib

/-- `usize` arithmetic. -/
def wrap (n : Nat) : Nat := n % 2 ^ 64

theorem wrap_of_lt {n : Nat} (h : n < 2 ^ 64) : wrap n = n := Nat.mod_eq_of_lt h

def maxDesktopPixels : Nat := 32 <<< 20

structure Framebuffer where
  width : Nat
  height : Nat
  pixels : List UInt32
deriving DecidableEq, Repr

namespace Framebuffer

def new : Framebuffer := ⟨0, 0, []⟩

/-- Nothing is preserved. -/
def resize (_fb : Framebuffer) (width height : Nat) : Framebuffer :=
  ⟨width, height, List.replicate (width * height) Decode.black⟩

def clip (fb : Framebuffer) (x y w h : Nat) : Option Rect :=
  if x ≥ fb.width ∨ y ≥ fb.height then none
  else
    let w := min w (fb.width - x)
    let h := min h (fb.height - y)
    if w = 0 ∨ h = 0 then none else some ⟨x, y, w, h⟩

/-- `src` is `w × h` pixels, clipped to the framebuffer. The source's stride is
the rectangle's own width, not the clipped one. -/
def blit (fb : Framebuffer) (x y w h : Nat) (src : List UInt32) : Option Framebuffer :=
  if src.length < wrap (w * h) then some fb
  else
    match fb.clip x y w h with
    | none => some fb
    | some r => do
      let pixels ← (List.range r.h).foldlM (fun pixels row => do
        let src ← slice src (wrap (row * w)) (wrap (wrap (row * w) + r.w))
        copyFromSlice pixels ((r.y + row) * fb.width + r.x) ((r.y + row) * fb.width + r.x + r.w) src) fb.pixels
      return { fb with pixels }

/-- `xs.copy_within(lo..hi, dest)`. -/
def copyWithin (xs : List UInt32) (lo hi dest : Nat) : Option (List UInt32) := do
  let src ← slice xs lo hi
  copyFromSlice xs dest (dest + (hi - lo)) src

/-- `CopyRect`: the row order follows the direction of the move. -/
def copy (fb : Framebuffer) (srcX srcY dstX dstY w h : Nat) : Option Framebuffer :=
  let w := min (min w (fb.width - srcX)) (fb.width - dstX)
  let h := min (min h (fb.height - srcY)) (fb.height - dstY)
  if w = 0 ∨ h = 0 then some fb
  else do
    let rows := if dstY > srcY then (List.range h).reverse else List.range h
    let pixels ← rows.foldlM (fun pixels row =>
      let src := (srcY + row) * fb.width + srcX
      copyWithin pixels src (src + w) ((dstY + row) * fb.width + dstX)) fb.pixels
    return { fb with pixels }

/-- The bytes of words in memory: `R, G, B, A` each. -/
def rgba (words : List UInt32) : List UInt8 :=
  words.flatMap fun p : UInt32 => [p.toUInt8, (p >>> 8).toUInt8, (p >>> 16).toUInt8, (p >>> 24).toUInt8]

/-- Copies a rectangle out, row by row, into a destination with its own stride;
false where the rectangle is not wholly inside or the destination too short. -/
def readRgba (fb : Framebuffer) (x y w h : Nat) (dst : List UInt8) (dstStride : Nat) : Option (Bool × List UInt8) :=
  if fb.width = 0 ∨ w = 0 ∨ h = 0 then some (false, dst)
  else if wrap (x + w) > fb.width ∨ wrap (y + h) > fb.height then some (false, dst)
  else if dstStride < wrap (w * 4) ∨ dst.length < wrap ((h - 1) * dstStride + w * 4) then some (false, dst)
  else do
    let dst ← (List.range h).foldlM (fun dst row => do
      let src := wrap ((y + row) * fb.width + x)
      let words ← slice fb.pixels src (wrap (src + w))
      let dest := wrap (row * dstStride)
      copyFromSlice dst dest (wrap (dest + w * 4)) (rgba words)) dst
    return (true, dst)

/-- The whole desktop at `1/step`, nearest neighbour. -/
def thumbnail (fb : Framebuffer) (step : Nat) : Option (Option (Nat × Nat × List UInt32)) :=
  if fb.width = 0 ∨ step = 0 then some none
  else do
    let tw := (fb.width + step - 1) / step
    let th := (fb.height + step - 1) / step
    let out ← (List.range th).foldlM (fun out row => (List.range tw).foldlM (fun out col => do
      let sy := min (row * step) (fb.height - 1)
      let sx := min (col * step) (fb.width - 1)
      let p ← fb.pixels[sy * fb.width + sx]?
      return out ++ [p]) out) []
    return some (tw, th, out)

/-- `Backend::read_region`: a `readRgba` into the middle of a destination. -/
def readRegion (fb : Framebuffer) (x y w h : Nat) (dst : List UInt8) (dstStride dstX dstY : Nat) :
    Option (Bool × List UInt8) :=
  let start := wrap (dstY * dstStride + dstX * 4)
  if start > dst.length then some (false, dst)
  else do
    let (read, rest) ← fb.readRgba x y w h (dst.drop start) dstStride
    return (read, dst.take start ++ rest)

/-! ## The invariant -/

/-- There are as many pixels as the size says, and no more than a server may ask
for; both sides are 16-bit fields. -/
structure Inv (fb : Framebuffer) : Prop where
  length : fb.pixels.length = fb.width * fb.height
  bound : fb.width * fb.height ≤ maxDesktopPixels
  width : fb.width < 2 ^ 16
  height : fb.height < 2 ^ 16

theorem new_inv : new.Inv := ⟨rfl, by decide, by decide, by decide⟩

theorem resize_inv (fb : Framebuffer) {width height : Nat} (hb : width * height ≤ maxDesktopPixels)
    (hw : width < 2 ^ 16) (hh : height < 2 ^ 16) : (fb.resize width height).Inv :=
  ⟨by simp [resize], hb, hw, hh⟩

/-- Writing to the pixels. -/
theorem Inv.setPixels {fb : Framebuffer} (hi : fb.Inv) {pixels : List UInt32} (h : pixels.length = fb.pixels.length) :
    ({ fb with pixels } : Framebuffer).Inv :=
  ⟨h.trans hi.length, hi.bound, hi.width, hi.height⟩

variable {fb : Framebuffer}

theorem clip_eq_some {x y w h : Nat} {r : Rect} (hc : fb.clip x y w h = some r) :
    r = ⟨x, y, min w (fb.width - x), min h (fb.height - y)⟩ ∧ r.Inside fb.width fb.height := by
  unfold clip at hc
  split at hc
  · cases hc
  · simp only at hc
    split at hc
    · cases hc
    · cases hc
      refine ⟨rfl, ?_⟩
      simp only [Rect.Inside]
      omega

theorem blit_keeps {x y w h : Nat} {src : List UInt32} {fb' : Framebuffer} (hi : fb.Inv)
    (hb : fb.blit x y w h src = some fb') :
    fb'.Inv ∧ fb'.width = fb.width ∧ fb'.height = fb.height := by
  unfold blit at hb
  split at hb
  · cases hb
    exact ⟨hi, rfl, rfl⟩
  · split at hb
    · cases hb
      exact ⟨hi, rfl, rfl⟩
    · obtain ⟨pixels, hrows, hfb⟩ := Option.bind_eq_some_iff.1 hb
      cases hfb
      refine ⟨hi.setPixels (foldlM_length (fun xs row ys h => ?_) hrows), rfl, rfl⟩
      obtain ⟨src, -, hcopy⟩ := Option.bind_eq_some_iff.1 h
      exact copyFromSlice_length hcopy

/-- A `blit` of any rectangle, in the desktop or not, is in bounds unless its
size overflows. -/
theorem blit_some {x y w h : Nat} (src : List UInt32) (hi : fb.Inv) (hfit : w * h < 2 ^ 64) :
    ∃ fb', fb.blit x y w h src = some fb' := by
  unfold blit
  rw [wrap_of_lt hfit]
  split
  · exact ⟨fb, rfl⟩
  · split
    · exact ⟨fb, rfl⟩
    · rename_i r hc
      obtain ⟨rfl, hw, hh⟩ := clip_eq_some hc
      simp only at hw hh ⊢
      obtain ⟨pixels, hrows, -⟩ := foldlM_some (fun pixels => pixels.length = fb.width * fb.height)
        (List.range (min h (fb.height - y)))
        (f := fun pixels row => do
          let src ← slice src (wrap (row * w)) (wrap (wrap (row * w) + min w (fb.width - x)))
          copyFromSlice pixels ((y + row) * fb.width + x) ((y + row) * fb.width + x + min w (fb.width - x)) src)
        (by
          intro pixels row hrow hlen
          have hrow' : row < h := by
            have := List.mem_range.1 hrow
            omega
          -- a row of the source is as wide as the rectangle, a row of the pixels as the desktop
          have hsrc : row * w + min w (fb.width - x) ≤ w * h := stripe_le (Nat.min_le_left _ _) hrow'
          have hdst : (y + row) * fb.width + x + min w (fb.width - x) ≤ fb.width * fb.height :=
            row_le (by omega) (by have := List.mem_range.1 hrow; omega)
          simp only [wrap_of_lt (by omega : row * w < 2 ^ 64),
            wrap_of_lt (by omega : row * w + min w (fb.width - x) < 2 ^ 64)]
          rw [← hlen] at hdst ⊢
          exact copy_slice_some (by omega) (by omega) (by omega) (by omega) (by omega))
        hi.length
      exact ⟨_, by rw [hrows]; rfl⟩

/-- A `copy` is in bounds whatever its arguments. -/
theorem copy_some (srcX srcY dstX dstY w h : Nat) (hi : fb.Inv) :
    ∃ fb', fb.copy srcX srcY dstX dstY w h = some fb' ∧ fb'.Inv ∧ fb'.width = fb.width ∧ fb'.height = fb.height := by
  unfold copy
  simp only
  generalize hw : min (min w (fb.width - srcX)) (fb.width - dstX) = w'
  generalize hh : min (min h (fb.height - srcY)) (fb.height - dstY) = h'
  split
  · exact ⟨fb, rfl, hi, rfl, rfl⟩
  · next hsome =>
    have hside := fun k => @min_sub_iff w fb.width srcX dstX w' k hw
    have hside' := fun k => @min_sub_iff h fb.height srcY dstY h' k hh
    clear hw hh
    have hlast := (hside (w' - 1)).1 (by omega)
    have hrow : ∀ pixels row, row < h' → pixels.length = fb.pixels.length →
        ∃ ys, copyWithin pixels ((srcY + row) * fb.width + srcX) ((srcY + row) * fb.width + srcX + w')
          ((dstY + row) * fb.width + dstX) = some ys ∧ ys.length = fb.pixels.length := by
      intro pixels row hrow hlen
      have hdown := (hside' row).1 hrow
      have h1 : (srcY + row) * fb.width + srcX + w' ≤ fb.width * fb.height := row_le (by omega) (by omega)
      have h2 : (dstY + row) * fb.width + dstX + w' ≤ fb.width * fb.height := row_le (by omega) (by omega)
      rw [← hi.length, ← hlen] at h1 h2
      rw [← hlen]
      exact copy_slice_some (by omega) h1 (by omega) (by omega) (by omega)
    -- the order of the rows does not matter to the bounds
    obtain ⟨pixels, hrows, hlen⟩ := foldlM_some (fun pixels => pixels.length = fb.pixels.length)
      (if dstY > srcY then (List.range h').reverse else List.range h')
      (fun pixels row hmem hlen => hrow pixels row (by split at hmem <;> simpa using hmem) hlen) rfl
    exact ⟨{ fb with pixels }, by rw [hrows]; rfl, hi.setPixels hlen, rfl, rfl⟩

/-- A copy takes the pixels as they were before it, whichever way it goes. -/
theorem copy_copied (srcX srcY dstX dstY w h : Nat) (hlen : fb.pixels.length = fb.width * fb.height) :
    ∃ pixels, fb.copy srcX srcY dstX dstY w h = some { fb with pixels } ∧
      Copied fb.width fb.height srcX srcY dstX dstY w h fb.pixels pixels := by
  unfold copy
  dsimp only
  generalize hw : min (min w (fb.width - srcX)) (fb.width - dstX) = w'
  generalize hh : min (min h (fb.height - srcY)) (fb.height - dstY) = h'
  split
  · next hnone => exact ⟨fb.pixels, rfl, rfl, fun x y hx hy => (if_neg (not_mem_of_empty hw hh hnone hx hy)).symm⟩
  · next hsome =>
    obtain ⟨hw', hh'⟩ := not_or.1 hsome
    obtain ⟨pixels, hrows, hcopied⟩ := copied_rows srcX srcY dstX dstY w h hlen hw hh hw' hh'
    refine ⟨pixels, ?_, hcopied⟩
    have hcopy : List.foldlM (fun pixels row =>
        copyWithin pixels ((srcY + row) * fb.width + srcX) ((srcY + row) * fb.width + srcX + w') ((dstY + row) * fb.width + dstX))
        fb.pixels (if dstY > srcY then (List.range h').reverse else List.range h') = some pixels := hrows
    rw [hcopy]
    rfl

theorem rgba_length (words : List UInt32) : (rgba words).length = words.length * 4 := by
  induction words with
  | nil => rfl
  | cons p words ih =>
    rw [rgba, List.flatMap_cons, List.length_append, ← rgba, ih]
    simp only [List.length_cons, List.length_nil]
    omega

theorem readRgba_length {x y w h dstStride : Nat} {dst dst' : List UInt8} {read : Bool}
    (hr : fb.readRgba x y w h dst dstStride = some (read, dst')) : dst'.length = dst.length := by
  unfold readRgba at hr
  split at hr
  · cases hr
    rfl
  · split at hr
    · cases hr
      rfl
    · split at hr
      · cases hr
        rfl
      · obtain ⟨out, hrows, hout⟩ := Option.bind_eq_some_iff.1 hr
        cases hout
        refine foldlM_length (fun xs row ys h => ?_) hrows
        obtain ⟨words, -, hcopy⟩ := Option.bind_eq_some_iff.1 h
        exact copyFromSlice_length hcopy

/-- One row of a region read. -/
theorem readRow_some {x y row w dest : Nat} {dst : List UInt8} (hi : fb.Inv) (hx : x + w ≤ fb.width)
    (hrow : y + row < fb.height) (hdest : dest + w * 4 ≤ dst.length) :
    ∃ dst', (slice fb.pixels ((y + row) * fb.width + x) ((y + row) * fb.width + x + w)).bind
        (fun words => copyFromSlice dst dest (dest + w * 4) (rgba words)) = some dst' ∧ dst'.length = dst.length := by
  have hin : (y + row) * fb.width + x + w ≤ fb.pixels.length := hi.length ▸ row_le hx hrow
  have hs : slice fb.pixels ((y + row) * fb.width + x) ((y + row) * fb.width + x + w) = some _ :=
    slice_eq_some.2 ⟨by omega, hin, rfl⟩
  have hlen : ∀ words, words.length = w → (rgba words).length = dest + w * 4 - dest := by
    intro words hw
    rw [rgba_length]
    omega
  have hc := copyFromSlice_eq_some.2 ⟨(by omega : dest ≤ dest + w * 4), hdest,
    hlen _ (by rw [slice_length hs]; omega), rfl⟩
  exact ⟨_, by rw [hs]; exact hc, copyFromSlice_length hc⟩

/-- A region read is in bounds of both the desktop and the destination, unless
its arguments overflow. -/
theorem readRgba_some {x y w h dstStride : Nat} (dst : List UInt8) (hi : fb.Inv) (hx : x + w < 2 ^ 64)
    (hy : y + h < 2 ^ 64) (hdst : (h - 1) * dstStride + w * 4 < 2 ^ 64) :
    ∃ r, fb.readRgba x y w h dst dstStride = some r := by
  unfold readRgba
  rw [wrap_of_lt hx, wrap_of_lt hy, wrap_of_lt (by omega : w * 4 < 2 ^ 64), wrap_of_lt hdst]
  split
  · exact ⟨_, rfl⟩
  · split
    · exact ⟨_, rfl⟩
    · split
      · exact ⟨_, rfl⟩
      · obtain ⟨out, hrows, -⟩ := foldlM_some (fun out => out.length = dst.length) (List.range h) (s := dst)
          (f := fun dst row => do
            let src := wrap ((y + row) * fb.width + x)
            let words ← slice fb.pixels src (wrap (src + w))
            let dest := wrap (row * dstStride)
            copyFromSlice dst dest (wrap (dest + w * 4)) (rgba words))
          (by
            intro out row hmem hlen
            have hrow : row < h := List.mem_range.1 hmem
            -- nothing wraps: the desktop is small and the destination's end was checked
            have h1 : (y + row) * fb.width + x + w ≤ fb.width * fb.height := row_le (by omega) (by omega)
            have h2 : row * dstStride ≤ (h - 1) * dstStride := Nat.mul_le_mul_right dstStride (by omega)
            have hbound : fb.width * fb.height ≤ 33554432 := hi.bound
            simp only [wrap_of_lt (by omega : (y + row) * fb.width + x < 2 ^ 64),
              wrap_of_lt (by omega : (y + row) * fb.width + x + w < 2 ^ 64),
              wrap_of_lt (by omega : row * dstStride < 2 ^ 64),
              wrap_of_lt (by omega : row * dstStride + w * 4 < 2 ^ 64)]
            obtain ⟨out', hout, hlen'⟩ := readRow_some hi (by omega : x + w ≤ fb.width)
              (by omega : y + row < fb.height) (by omega : row * dstStride + w * 4 ≤ out.length)
            exact ⟨out', hout, hlen'.trans hlen⟩)
          rfl
        exact ⟨_, by rw [hrows]; rfl⟩

/-- The thumbnail is in bounds for every step. -/
theorem thumbnail_some (step : Nat) (hi : fb.Inv) : ∃ r, fb.thumbnail step = some r := by
  unfold thumbnail
  split
  · exact ⟨_, rfl⟩
  · rename_i hne
    have hstep : 0 < step := by omega
    have hpixel : ∀ row col, row < (fb.height + step - 1) / step →
        ∃ p, fb.pixels[min (row * step) (fb.height - 1) * fb.width + min (col * step) (fb.width - 1)]? = some p := by
      intro row col hrow
      -- a desktop without rows has no row to take a pixel from
      have hh : 0 < fb.height := by
        refine Nat.pos_of_ne_zero fun h0 => ?_
        rw [h0, Nat.zero_add, Nat.div_eq_of_lt (by omega)] at hrow
        omega
      have hidx : min (row * step) (fb.height - 1) * fb.width + min (col * step) (fb.width - 1) < fb.pixels.length :=
        hi.length ▸ index_lt (by omega) (by omega)
      exact ⟨_, List.getElem?_eq_getElem hidx⟩
    obtain ⟨out, hrows, -⟩ := foldlM_some (fun _ => True) (List.range ((fb.height + step - 1) / step))
      (f := fun (out : List UInt32) row => (List.range ((fb.width + step - 1) / step)).foldlM (fun out col => do
        let p ← fb.pixels[min (row * step) (fb.height - 1) * fb.width + min (col * step) (fb.width - 1)]?
        return out ++ [p]) out)
      (fun out row hrow _ => foldlM_some (fun _ => True) _ (fun out col _ _ => by
        obtain ⟨p, hp⟩ := hpixel row col (List.mem_range.1 hrow)
        exact ⟨out ++ [p], by rw [hp]; rfl, trivial⟩) trivial)
      (s := []) trivial
    exact ⟨_, by simp only [hrows]; rfl⟩

/-- `readRegion` is the same, past the start of the destination. -/
theorem readRegion_length {x y w h dstStride dstX dstY : Nat} {dst dst' : List UInt8} {read : Bool}
    (hr : fb.readRegion x y w h dst dstStride dstX dstY = some (read, dst')) : dst'.length = dst.length := by
  unfold readRegion at hr
  simp only at hr
  split at hr
  · cases hr
    rfl
  · obtain ⟨⟨read, rest⟩, hrest, hout⟩ := Option.bind_eq_some_iff.1 hr
    cases hout
    have := readRgba_length hrest
    simp only [List.length_append, List.length_take, List.length_drop] at this ⊢
    omega

theorem readRegion_some {x y w h dstStride dstX dstY : Nat} (dst : List UInt8) (hi : fb.Inv) (hx : x + w < 2 ^ 64)
    (hy : y + h < 2 ^ 64) (hdst : (h - 1) * dstStride + w * 4 < 2 ^ 64) :
    ∃ r, fb.readRegion x y w h dst dstStride dstX dstY = some r := by
  unfold readRegion
  simp only
  split
  · exact ⟨_, rfl⟩
  · obtain ⟨⟨read, rest⟩, hr⟩ := readRgba_some (dst.drop (wrap (dstY * dstStride + dstX * 4))) hi hx hy hdst
    exact ⟨_, by rw [hr]; rfl⟩

/-- What every operation does to buffers of these lengths, for any arguments: it
stays in them and keeps their lengths. Where the arguments overflow `usize` a
slice's check may fail, which stops it there; nothing else fails one. -/
structure InBounds (fb : Framebuffer) : Prop where
  blit : ∀ x y w h src, match fb.blit x y w h src with
    | some fb' => fb'.Inv ∧ fb'.width = fb.width ∧ fb'.height = fb.height
    | none => 2 ^ 64 ≤ w * h
  copy : ∀ srcX srcY dstX dstY w h, ∃ fb', fb.copy srcX srcY dstX dstY w h = some fb' ∧ fb'.Inv ∧
    fb'.width = fb.width ∧ fb'.height = fb.height
  readRgba : ∀ x y w h dst dstStride, match fb.readRgba x y w h dst dstStride with
    | some (_, dst') => dst'.length = dst.length
    | none => 2 ^ 64 ≤ x + w ∨ 2 ^ 64 ≤ y + h ∨ 2 ^ 64 ≤ (h - 1) * dstStride + w * 4
  readRegion : ∀ x y w h dst dstStride dstX dstY, match fb.readRegion x y w h dst dstStride dstX dstY with
    | some (_, dst') => dst'.length = dst.length
    | none => 2 ^ 64 ≤ x + w ∨ 2 ^ 64 ≤ y + h ∨ 2 ^ 64 ≤ (h - 1) * dstStride + w * 4
  thumbnail : ∀ step, ∃ r, fb.thumbnail step = some r

theorem Inv.inBounds (hi : fb.Inv) : fb.InBounds where
  blit x y w h src := by
    split
    · rename_i hb
      exact blit_keeps hi hb
    · rename_i hb
      by_contra hlt
      obtain ⟨fb', hfb'⟩ := blit_some (x := x) (y := y) src hi (Nat.not_le.1 hlt)
      rw [hfb'] at hb
      cases hb
  copy srcX srcY dstX dstY w h := copy_some srcX srcY dstX dstY w h hi
  readRgba x y w h dst dstStride := by
    split
    · rename_i hr
      exact readRgba_length hr
    · rename_i hr
      by_contra hlt
      obtain ⟨r, hr'⟩ := readRgba_some dst hi (x := x) (y := y) (w := w) (h := h) (by omega) (by omega)
        (by omega : (h - 1) * dstStride + w * 4 < 2 ^ 64)
      rw [hr'] at hr
      cases hr
  readRegion x y w h dst dstStride dstX dstY := by
    split
    · rename_i hr
      exact readRegion_length hr
    · rename_i hr
      by_contra hlt
      have hread : ∃ r, fb.readRegion x y w h dst dstStride dstX dstY = some r :=
        readRegion_some dst hi (by omega) (by omega) (by omega)
      obtain ⟨r, hr'⟩ := hread
      rw [hr'] at hr
      cases hr
  thumbnail step := thumbnail_some step hi

end Framebuffer

end Vento.Rfb
