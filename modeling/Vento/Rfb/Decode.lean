import Vento.Lib.Raster
import Vento.Rfb.Proto
/-!
# Raw, RRE and Hextile

The decoders of `rfb/src/decode.rs` that read the socket directly, each
decoding one `w × h` rectangle into scratch space, and the cursor. A slice out
of bounds is a panic here as it is there, so that the decoders never panic is a
theorem.

A rectangle lies in the desktop before a decoder is called, so no size below
comes near the range of `usize`.
-/

namespace Vento.Rfb.Decode

open Vento.Lib Parser

/-! ## Writes into the scratch space -/

def fill (out : List UInt32) (stride height x y w h : Nat) (colour : UInt32) : Option (List UInt32) :=
  if x ≥ stride ∨ y ≥ height then some out
  else
    let w := min w (stride - x)
    let h := min h (height - y)
    (List.range h).foldlM (fun out row =>
      fillSlice out ((y + row) * stride + x) ((y + row) * stride + x + w) colour) out

def blit (out : List UInt32) (stride x y w h : Nat) (src : List UInt32) : Option (List UInt32) :=
  (List.range h).foldlM (fun out row => do
    let src ← slice src (row * w) (row * w + w)
    copyFromSlice out ((y + row) * stride + x) ((y + row) * stride + x + w) src) out

/-! ## Raw -/

/-- `chunks_exact(4)`, each chunk a pixel. -/
def pixels : List UInt8 → List UInt32
  | r :: g :: b :: _ :: rest => pack ⟨r, g, b⟩ :: pixels rest
  | _ => []

def raw (w h : Nat) : Reader (List UInt32) := pixels <$> bytes (w * h * 4)

/-! ## RRE -/

def rreSubrect (w h : Nat) (out : List UInt32) : Reader (List UInt32) := do
  let colour ← pixel
  let sx ← u16
  let sy ← u16
  let sw ← u16
  let sh ← u16
  orPanic (fill out w h sx sy sw sh colour)

/-- A background, then a list of flat rectangles over it. -/
def rre (w h : Nat) : Reader (List UInt32) := do
  let count ← u32
  let background ← pixel
  repeatM count (rreSubrect w h) (List.replicate (w * h) background)

/-! ## Hextile -/

def hextileRaw : UInt8 := 1
def hextileBackground : UInt8 := 2
def hextileForeground : UInt8 := 4
def hextileSubrects : UInt8 := 8
def hextileColoured : UInt8 := 16

def black : UInt32 := 0xff000000

/-- A colour that the tile gives where its flag is set. -/
def given (flags flag : UInt8) (otherwise : UInt32) : Reader UInt32 :=
  if flags &&& flag ≠ 0 then pixel else pure otherwise

structure HextileState where
  out : List UInt32
  background : UInt32
  foreground : UInt32

def hextileSubrect (w h : Nat) (t : Rect) (flags : UInt8) (foreground : UInt32) (out : List UInt32) :
    Reader (List UInt32) := do
  let colour ← given flags hextileColoured foreground
  let xy ← u8
  let wh ← u8
  let sx := (xy >>> 4).toNat
  let sy := (xy &&& 0x0f).toNat
  let sw := (wh >>> 4).toNat + 1
  let sh := (wh &&& 0x0f).toNat + 1
  -- Clipped to the room left in the tile, which the subrect may overhang.
  orPanic (fill out w h (t.x + sx) (t.y + sy) (min sw (t.w - sx)) (min sh (t.h - sy)) colour)

def hextileTile (w h : Nat) (s : HextileState) (t : Rect) : Reader HextileState := do
  let flags ← u8
  if flags &&& hextileRaw ≠ 0 then
    let tile ← raw t.w t.h
    let out ← orPanic (blit s.out w t.x t.y t.w t.h tile)
    return { s with out }
  else
    let background ← given flags hextileBackground s.background
    let foreground ← given flags hextileForeground s.foreground
    let out ← orPanic (fill s.out w h t.x t.y t.w t.h background)
    if flags &&& hextileSubrects = 0 then
      return ⟨out, background, foreground⟩
    else
      let count ← u8
      let out ← repeatM count.toNat (hextileSubrect w h t flags foreground) out
      return ⟨out, background, foreground⟩

/-- 16×16 tiles, each raw or a background with subrects; the two colours persist
between tiles. -/
def hextile (w h : Nat) : Reader (List UInt32) :=
  (·.out) <$> (Rect.grid w h 16).foldlM (hextileTile w h) ⟨List.replicate (w * h) black, black, black⟩

/-! ## The cursor -/

def maxCursorSide : Nat := 1024

/-- The pixels under a mask bit of 0 become transparent. -/
def applyMask (w h : Nat) (mask : List UInt8) (pixels : List UInt32) : Option (List UInt32) :=
  let stride := (w + 7) / 8
  (List.range h).foldlM (fun pixels y => (List.range w).foldlM (fun pixels x => do
    let byte ← mask[y * stride + x / 8]?
    if (byte >>> UInt8.ofNat (7 - x % 8)) &&& 1 = 0 then
      if y * w + x < pixels.length then some (pixels.set (y * w + x) 0) else none
    else some pixels) pixels) pixels

def cursor (w h : Nat) : Reader (List UInt32) := do
  if w > maxCursorSide ∨ h > maxCursorSide then Parser.fail (.error (.protocol s!"cursor of {w}x{h}"))
  else
    let pixels ← repeatM (w * h) (fun pixels => do return pixels ++ [← pixel]) []
    let mask ← bytes ((w + 7) / 8 * h)
    orPanic (applyMask w h mask pixels)

def emptyCursor (w h : Nat) : Bool := w == 0 || h == 0

/-! ## Where the writes land -/

variable {w h : Nat} {out : List UInt32}

/-- A `fill` paints what of its rectangle lies in the picture, whatever its
arguments. -/
theorem fill_painted (hlen : out.length = w * h) (x y sw sh : Nat) (colour : UInt32) :
    ∃ out', fill out w h x y sw sh colour = some out' ∧
      Painted w ⟨x, y, min sw (w - x), min sh (h - y)⟩ (fun _ _ => colour) out out' := by
  by_cases hout : x ≥ w ∨ y ≥ h
  · refine ⟨out, by simp [fill, hout], rfl, fun px py _ => ?_⟩
    rw [if_neg]
    simp only [Rect.Mem]
    omega
  · have hr : (⟨x, y, min sw (w - x), min sh (h - y)⟩ : Rect).Inside w h := by
      simp only [Rect.Inside]
      omega
    rw [fill, if_neg hout]
    exact painted_fill hr colour hlen

theorem blit_painted {t : Rect} (ht : t.Inside w h) (hlen : out.length = w * h) (pix : Nat → Nat → UInt32) :
    ∃ out', blit out w t.x t.y t.w t.h (raster t.w t.h pix) = some out' ∧
      Painted w t (fun x y => pix (x - t.x) (y - t.y)) out out' :=
  painted_blit ht pix hlen

theorem blit_framed {t : Rect} (ht : t.Inside w h) (hlen : out.length = w * h) {src : List UInt32}
    (hsrc : src.length = t.w * t.h) : ∃ out', blit out w t.x t.y t.w t.h src = some out' ∧ Framed w t out out' := by
  rw [eq_raster_getD src 0 hsrc]
  obtain ⟨out', h1, h2⟩ := blit_painted ht hlen fun x y => src.getD (y * t.w + x) 0
  exact ⟨out', h1, h2.framed⟩

theorem pixels_length {n : Nat} {bs : List UInt8} (h : bs.length = n * 4) : (pixels bs).length = n := by
  induction n generalizing bs with
  | zero =>
    have : bs = [] := by simpa using h
    simp [this, pixels]
  | succ n ih =>
    match bs with
    | [] | [_] | [_, _] | [_, _, _] => simp only [List.length_cons, List.length_nil] at h; omega
    | r :: g :: b :: p :: rest =>
      simp only [List.length_cons] at h
      have hrest := @ih rest (by omega)
      simp [pixels, hrest]

theorem sat_raw (w h : Nat) : Sat (raw w h) (fun out => out.length = w * h) Failure.IsError :=
  (sat_bytes _).map fun _ hbs => pixels_length hbs

theorem sat_rreSubrect (hlen : out.length = w * h) :
    Sat (rreSubrect w h out) (fun out' => out'.length = w * h) Failure.IsError := by
  refine sat_pixel.bind fun colour _ => sat_u16.bind fun sx _ => sat_u16.bind fun sy _ =>
    sat_u16.bind fun sw _ => sat_u16.bind fun sh _ => ?_
  obtain ⟨out', h1, h2⟩ := fill_painted hlen sx sy sw sh colour
  exact sat_orPanic ⟨out', h1, h2.length.trans hlen⟩

theorem sat_rre (w h : Nat) : Sat (rre w h) (fun out => out.length = w * h) Failure.IsError :=
  sat_u32.bind fun count _ => sat_pixel.bind fun background _ =>
    Sat.repeatM _ (fun _ => sat_rreSubrect) count (by simp)

theorem sat_given (flags flag : UInt8) (otherwise : UInt32) :
    Sat (given flags flag otherwise) (fun _ => True) Failure.IsError := by
  unfold given
  split
  · exact sat_pixel
  · exact Sat.pure trivial

/-- Subrects overhang neither the tile nor, at the edges, the picture. -/
theorem sat_hextileSubrect {t : Rect} (hlen : out.length = w * h) (flags : UInt8) (foreground : UInt32) :
    Sat (hextileSubrect w h t flags foreground out) (Framed w t out) Failure.IsError := by
  refine (sat_given _ _ _).bind fun colour _ => sat_u8.bind fun xy _ => sat_u8.bind fun wh _ => sat_orPanic ?_
  obtain ⟨out', h1, h2⟩ := fill_painted hlen (t.x + (xy >>> 4).toNat) (t.y + (xy &&& 0x0f).toNat)
    (min ((wh >>> 4).toNat + 1) (t.w - (xy >>> 4).toNat)) (min ((wh &&& 0x0f).toNat + 1) (t.h - (xy &&& 0x0f).toNat))
    colour
  refine ⟨out', h1, h2.framed.mono fun x y hm => ?_⟩
  simp only [Rect.Mem] at *
  omega

theorem sat_hextileTile {t : Rect} (ht : t.Inside w h) {s : HextileState} (hlen : s.out.length = w * h) :
    Sat (hextileTile w h s t) (fun s' => Framed w t s.out s'.out) Failure.IsError := by
  refine sat_u8.bind fun flags _ => ?_
  split
  · refine (sat_raw t.w t.h).bind fun tile htile => ?_
    obtain ⟨out', h1, h2⟩ := blit_framed ht hlen htile
    exact (sat_orPanic ⟨out', h1, h2⟩).bind fun _ hf => Sat.pure hf
  · refine (sat_given _ _ _).bind fun background _ => (sat_given _ _ _).bind fun foreground _ => ?_
    have hfill : ∃ out', fill s.out w h t.x t.y t.w t.h background = some out' ∧ Framed w t s.out out' := by
      obtain ⟨out', h1, h2⟩ := fill_painted hlen t.x t.y t.w t.h background
      refine ⟨out', h1, h2.framed.mono fun x y hm => ?_⟩
      simp only [Rect.Mem] at *
      omega
    refine (sat_orPanic hfill).bind fun out hout => ?_
    split
    · exact Sat.pure hout
    · refine sat_u8.bind fun count _ => ?_
      refine (Sat.repeatM (Framed w t s.out) (fun o ho => ?_) count.toNat hout).bind fun _ hf => Sat.pure hf
      exact (sat_hextileSubrect (ho.length.trans hlen) flags foreground).mono fun _ => ho.trans

theorem sat_hextile (w h : Nat) : Sat (hextile w h) (fun out => out.length = w * h) Failure.IsError := by
  refine (Sat.foldlM (fun s : HextileState => s.out.length = w * h) (fun s t ht hs => ?_) (by simp)).map fun _ hs => hs
  exact (sat_hextileTile (Rect.grid_inside (by decide) ht) hs).mono fun _ hf => hf.length.trans hs

/-- The mask has a bit for every pixel. -/
theorem applyMask_some {mask : List UInt8} {pixels : List UInt32} (hmask : mask.length = (w + 7) / 8 * h)
    (hpixels : pixels.length = w * h) : ∃ out, applyMask w h mask pixels = some out ∧ out.length = w * h := by
  refine foldlM_some (fun pixels : List UInt32 => pixels.length = w * h) _ (fun pixels y hy hlen => ?_) hpixels
  refine foldlM_some (fun pixels : List UInt32 => pixels.length = w * h) _ (fun pixels x hx hlen => ?_) hlen
  have hx : x < w := List.mem_range.1 hx
  have hy : y < h := List.mem_range.1 hy
  have hbyte : y * ((w + 7) / 8) + x / 8 < mask.length := hmask ▸ index_lt (by omega) hy
  have hpixel : y * w + x < pixels.length := hlen ▸ index_lt hx hy
  simp only [List.getElem?_eq_getElem hbyte, Option.bind_eq_bind, Option.bind_some]
  split
  · exact ⟨_, rfl, by rw [List.length_set, hlen]⟩
  · exact ⟨_, rfl, hlen⟩

theorem sat_cursor (w h : Nat) : Sat (cursor w h) (fun out => out.length = w * h) Failure.IsError := by
  unfold cursor
  split
  · exact Sat.fail (isError_protocol _)
  · refine (Sat.repeatM_count (fun k (pixels : List UInt32) => pixels.length = k)
      (fun k pixels hk => sat_pixel.bind fun p _ => Sat.pure (by simp [hk])) (w * h) rfl).bind fun pixels hpixels => ?_
    exact (sat_bytes _).bind fun mask hmask => sat_orPanic (applyMask_some hmask hpixels)

end Vento.Rfb.Decode
