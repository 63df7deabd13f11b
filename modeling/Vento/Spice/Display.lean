import Mathlib.Algebra.Ring.Int.Defs
import Vento.Spice.Framebuffer
/-!
# Draws and what they report

`spice/src/display.rs` and `fit` of `images.rs`: a message of the display channel
comes to one call, which writes to the framebuffer and reports a rectangle as
damaged. The readers of the wire types and the decoders are not this program's:
`Codecs` stands for them.

A draw reports the box it names, whatever was written: `Sound` asks that every
pixel that changes is reported and that no report is off the desktop, and
`damage_sound_iff` says for which geometry both hold whatever the pixels are.
-/

namespace Vento.Spice

open Vento.Lib

/-- `runtime::MAX_DESKTOP_PIXELS`. -/
def maxDesktopPixels : Nat := 32 <<< 20

/-- A decoded image: `R, G, B, A` bytes, row by row. -/
structure Image where
  width : Nat
  height : Nat
  pixels : List UInt8
deriving DecidableEq, Repr

/-- The part of an image a draw takes. -/
structure Source where
  left : Nat
  top : Nat
  right : Nat
  bottom : Nat
deriving DecidableEq, Repr

/-! ## Fitting an image to its box -/

/-- The row or column of a crop that a row or column of the box shows. -/
def scale (i crop size : Nat) : Nat := i * crop / size

/-- The source rectangle out of the image, at the size of the box it goes in.
`none` is an index out of range, `some none` an image that is refused. -/
def fit (image : Image) (src : Source) (width height : Nat) : Option (Option Image) :=
  if image.width * image.height * 4 ≥ 2 ^ 64 ∨ image.width * image.height * 4 ≠ image.pixels.length then some none
  else
    let left := min src.left image.width
    let top := min src.top image.height
    let cropW := min src.right image.width - left
    let cropH := min src.bottom image.height - top
    if cropW = 0 ∨ cropH = 0 then some (some image)
    else if left = 0 ∧ top = 0 ∧ cropW = image.width ∧ cropH = image.height ∧
        (width = 0 ∨ height = 0 ∨ (width = image.width ∧ height = image.height)) then some (some image)
    else
      let w := if width = 0 ∨ height = 0 then cropW else width
      let h := if width = 0 ∨ height = 0 then cropH else height
      if w * h > maxDesktopPixels then some none
      else do
        let rows ← (List.range h).mapM fun y => (List.range w).mapM fun x =>
          let start := ((top + scale y cropH h) * image.width + (left + scale x cropW w)) * 4
          slice image.pixels start (start + 4)
        return some ⟨w, h, rows.flatten.flatten⟩

/-- The size of what a draw puts on the desktop, from the sizes alone: the image
as it is where the source rectangle misses it, the box, or the source rectangle
where the box is empty. -/
def drawnSize (image : Image) (src : Source) (width height : Nat) : Option (Nat × Nat) :=
  let cropW := min src.right image.width - min src.left image.width
  let cropH := min src.bottom image.height - min src.top image.height
  let whole := cropW = image.width ∧ cropH = image.height
  if image.width * image.height * 4 ≥ 2 ^ 64 ∨ image.width * image.height * 4 ≠ image.pixels.length then none
  else if cropW = 0 ∨ cropH = 0 then some (image.width, image.height)
  else
    let size := if width = 0 ∨ height = 0 then (cropW, cropH) else (width, height)
    -- the image as it is, or one of its size is made
    if whole ∧ size = (image.width, image.height) ∨ size.1 * size.2 ≤ maxDesktopPixels then some size else none

theorem scale_lt {i crop size : Nat} (hi : i < size) (hcrop : 0 < crop) : scale i crop size < crop :=
  Nat.div_lt_of_lt_mul ((Nat.mul_lt_mul_right hcrop).2 hi)

theorem flatten_length {α : Type} {n : Nat} (xss : List (List α)) (h : ∀ xs ∈ xss, xs.length = n) :
    xss.flatten.length = xss.length * n := by
  induction xss with
  | nil => simp
  | cons xs xss ih =>
    rw [List.flatten_cons, List.length_append, ih fun ys hy => h ys (by simp [hy]), h xs (by simp), List.length_cons,
      Nat.succ_mul]
    omega

/-- The scaled image: every index is in range, for a crop that is in the image. -/
theorem scaled_some {image : Image} (hlen : image.width * image.height * 4 = image.pixels.length)
    {left top cropW cropH : Nat} (hw : 0 < cropW) (hh : 0 < cropH) (hright : left + cropW ≤ image.width)
    (hbottom : top + cropH ≤ image.height) (w h : Nat) :
    ∃ rows, (List.range h).mapM (fun y => (List.range w).mapM fun x =>
        slice image.pixels (((top + scale y cropH h) * image.width + (left + scale x cropW w)) * 4)
          (((top + scale y cropH h) * image.width + (left + scale x cropW w)) * 4 + 4)) = some rows ∧
      rows.flatten.flatten.length = w * h * 4 := by
  have hpixel : ∀ x y, x < w → y < h → ∃ bytes, slice image.pixels
      (((top + scale y cropH h) * image.width + (left + scale x cropW w)) * 4)
      (((top + scale y cropH h) * image.width + (left + scale x cropW w)) * 4 + 4) = some bytes ∧ bytes.length = 4 := by
    intro x y hx hy
    have hsx := scale_lt hx hw
    have hsy := scale_lt hy hh
    have hindex : (top + scale y cropH h) * image.width + (left + scale x cropW w) < image.width * image.height :=
      index_lt (by omega) (by omega)
    obtain ⟨bytes, hs⟩ : ∃ bytes, slice image.pixels
        (((top + scale y cropH h) * image.width + (left + scale x cropW w)) * 4)
        (((top + scale y cropH h) * image.width + (left + scale x cropW w)) * 4 + 4) = some bytes :=
      ⟨_, slice_eq_some.2 ⟨by omega, by omega, rfl⟩⟩
    exact ⟨bytes, hs, by rw [slice_length hs]; omega⟩
  obtain ⟨rows, hrows, hcount, hrow⟩ := mapM_some
    (fun row : List (List UInt8) => row.length = w ∧ ∀ bytes ∈ row, bytes.length = 4) (List.range h) (f := fun y => (List.range w).mapM fun x =>
        slice image.pixels (((top + scale y cropH h) * image.width + (left + scale x cropW w)) * 4)
          (((top + scale y cropH h) * image.width + (left + scale x cropW w)) * 4 + 4)) (by
      intro y hy
      obtain ⟨row, hrow, hlen, hbytes⟩ := mapM_some (fun bytes : List UInt8 => bytes.length = 4) (List.range w)
        (fun x hx => hpixel x y (List.mem_range.1 hx) (List.mem_range.1 hy))
      exact ⟨row, hrow, by rw [hlen, List.length_range], hbytes⟩)
  refine ⟨rows, hrows, ?_⟩
  have hall : ∀ bytes ∈ rows.flatten, bytes.length = 4 := by
    intro bytes hb
    obtain ⟨row, hmem, hb⟩ := List.mem_flatten.1 hb
    exact (hrow row hmem).2 bytes hb
  rw [flatten_length _ hall, flatten_length rows fun row hr => (hrow row hr).1, hcount, List.length_range, Nat.mul_comm h]

/-- `fit` is in bounds, and an image of the size drawn has that many bytes. -/
theorem fit_spec (image : Image) (src : Source) (width height : Nat) :
    ∃ r, fit image src width height = some r ∧
      r.map (fun i => (i.width, i.height)) = drawnSize image src width height ∧
      ∀ i ∈ r, i.width * i.height * 4 < 2 ^ 64 ∧ i.pixels.length = i.width * i.height * 4 := by
  unfold fit drawnSize
  dsimp only
  split
  · exact ⟨none, rfl, rfl, fun i hi => by cases hi⟩
  · rename_i hclaimed
    rw [not_or, Nat.not_le, not_not] at hclaimed
    have hself : ∀ i ∈ some image, i.width * i.height * 4 < 2 ^ 64 ∧ i.pixels.length = i.width * i.height * 4 := by
      intro i hi
      cases hi
      exact ⟨hclaimed.1, hclaimed.2.symm⟩
    split
    · exact ⟨some image, rfl, rfl, hself⟩
    · rename_i hcrop
      rw [not_or] at hcrop
      split
      · rename_i hwhole
        obtain ⟨-, -, hw, hh, hbox⟩ := hwhole
        refine ⟨some image, rfl, ?_, hself⟩
        have hsize : (if width = 0 ∨ height = 0 then (min src.right image.width - min src.left image.width,
            min src.bottom image.height - min src.top image.height) else (width, height)) =
            (image.width, image.height) := by
          rw [hw, hh]
          split
          · rfl
          · rw [Prod.mk.injEq]
            omega
        rw [hsize, if_pos (.inl ⟨⟨hw, hh⟩, rfl⟩)]
        rfl
      · rename_i hwhole
        generalize hsize : (if width = 0 ∨ height = 0 then (min src.right image.width - min src.left image.width,
            min src.bottom image.height - min src.top image.height) else (width, height)) = size
        have hw : (if width = 0 ∨ height = 0 then min src.right image.width - min src.left image.width else width) =
            size.1 := by
          rw [← hsize]
          split <;> rfl
        have hh : (if width = 0 ∨ height = 0 then min src.bottom image.height - min src.top image.height else height) =
            size.2 := by
          rw [← hsize]
          split <;> rfl
        -- one that is whole and the size of its box was returned as it is
        have hscaled : ¬ ((min src.right image.width - min src.left image.width = image.width ∧
            min src.bottom image.height - min src.top image.height = image.height) ∧
              size = (image.width, image.height)) := by
          rintro ⟨⟨hw', hh'⟩, hs⟩
          rw [hs] at hsize
          apply hwhole
          refine ⟨by omega, by omega, hw', hh', ?_⟩
          split at hsize
          · omega
          · rw [Prod.mk.injEq] at hsize
            omega
        rw [hw, hh]
        split
        · rename_i hbig
          rw [if_neg (by rintro (h | h); exacts [hscaled h, by omega])]
          exact ⟨none, rfl, rfl, fun i hi => by cases hi⟩
        · rename_i hsmall
          obtain ⟨rows, hrows, hlen⟩ := scaled_some hclaimed.2 (Nat.pos_of_ne_zero hcrop.1) (Nat.pos_of_ne_zero hcrop.2)
            (by omega : min src.left image.width + _ ≤ _) (by omega : min src.top image.height + _ ≤ _) size.1 size.2
          rw [if_pos (.inr (by omega)), hrows]
          refine ⟨some ⟨size.1, size.2, rows.flatten.flatten⟩, rfl, rfl, ?_⟩
          intro i hi
          cases hi
          have hmax : maxDesktopPixels = 33554432 := rfl
          refine ⟨?_, hlen⟩
          dsimp only
          omega

/-! ## The channel's state -/

/-- The parts of a draw's base that are read here. -/
structure DrawBase where
  surfaceId : Nat
  left : Int
  top : Int
  right : Int
  bottom : Int
deriving DecidableEq, Repr

/-- A frame of a video stream. -/
structure Frame where
  width : Nat
  height : Nat
  rgba : List UInt8
deriving DecidableEq, Repr

/-- Image decoders with their caches (`ι`), stream decoders (`δ`), image
descriptors (`κ`), and the readers of the wire types. -/
structure Codecs (ι δ κ : Type) where
  /-- `DrawBase::read`, and where the fields after it start. -/
  drawBase : List UInt8 → Option (DrawBase × Nat)
  /-- `SpiceOpaque::read`: the image's offset and source rectangle. -/
  opaqueFields : List UInt8 → Option (Nat × Source)
  /-- `SpiceBrush::read`: the colour of a solid brush. -/
  brush : List UInt8 → Option (Option UInt32)
  /-- `ImageDescriptor::decode`, of that many bytes. -/
  descriptor : List UInt8 → Option κ
  descriptorSize : Nat
  /-- `Images::decode`. -/
  image : ι → κ → List UInt8 → ι × Option Image
  /-- `video::for_stream`. -/
  forStream : UInt8 → Option δ
  /-- `VideoDecoder::decode`: a frame, or none yet or none for an error. -/
  frame : δ → List UInt8 → δ × Option Frame

structure Stream (δ : Type) where
  dest : Rect
  decoder : δ

structure Display (ι δ : Type) where
  framebuffer : Framebuffer
  images : ι
  streams : Nat → Option (Stream δ)
  dirty : Bool
  offSurface : Nat

/-- The box a draw names; a negative edge is taken as zero. -/
def boxOf (base : DrawBase) : Rect :=
  ⟨base.left.toNat, base.top.toNat, base.right.toNat - base.left.toNat, base.bottom.toNat - base.top.toNat⟩

/-- A brush colour as a framebuffer word. -/
def argb (colour : UInt32) : UInt32 :=
  (0xff000000 : UInt32) ||| ((colour &&& 0xff) <<< 16) ||| (((colour >>> 8) &&& 0xff) <<< 8) ||| ((colour >>> 16) &&& 0xff)

def readU32 (data : List UInt8) (i : Nat) : Option Nat :=
  if i + 4 ≤ data.length then some (fromLeBytes ((data.drop i).take 4)) else none

/-! ## Calls -/

/-- The messages that draw, and those about streams. -/
inductive DisplayMessage where
  | drawCopy
  | drawBlend
  | drawOpaque
  | drawFill
  | drawBlackness
  | drawWhiteness
  | copyBits
  | streamCreate
  | streamData
  | streamDataSized
  | streamDestroy
  | streamDestroyAll
deriving DecidableEq, Repr

/-- What a message comes to. -/
inductive Call where
  | drawImage (base : DrawBase) (body : List UInt8) (offset : Nat) (src : Source)
  | fill (base : DrawBase) (colour : UInt32)
  | copyBits (base : DrawBase) (srcX srcY : Nat)
  | streamCreate (body : List UInt8)
  | streamData (sized : Bool) (body : List UInt8)
  | streamDestroy (id : Nat)
  | streamDestroyAll
  | nothing
deriving DecidableEq, Repr

section
variable {ι δ κ : Type} (c : Codecs ι δ κ)

/-- `Display::message`, up to the call; `none` is an error, which ends the
session. -/
def Call.of (type : DisplayMessage) (body : List UInt8) : Option Call :=
  match type with
  | .drawCopy | .drawBlend => do
    let (base, i) ← c.drawBase body
    match readU32 body i with
    | none => return .nothing
    | some offset =>
      return .drawImage base body offset ⟨(readU32 body (i + 8)).getD 0, (readU32 body (i + 4)).getD 0,
        (readU32 body (i + 16)).getD 0, (readU32 body (i + 12)).getD 0⟩
  | .drawOpaque => do
    let (base, i) ← c.drawBase body
    let (offset, src) ← c.opaqueFields (body.drop i)
    return .drawImage base body offset src
  | .drawFill => do
    let (base, i) ← c.drawBase body
    match ← c.brush (body.drop i) with
    | some colour => return .fill base (argb colour)
    | none => return .nothing
  | .drawBlackness => do
    let (base, _) ← c.drawBase body
    return .fill base 0xff000000
  | .drawWhiteness => do
    let (base, _) ← c.drawBase body
    return .fill base 0xffffffff
  | .copyBits => do
    let (base, i) ← c.drawBase body
    match readU32 body i, readU32 body (i + 4) with
    | some srcX, some srcY => return .copyBits base srcX srcY
    | _, _ => return .nothing
  | .streamCreate => some (.streamCreate body)
  | .streamData => some (.streamData false body)
  | .streamDataSized => some (.streamData true body)
  | .streamDestroy => some ((readU32 body 0).elim .nothing .streamDestroy)
  | .streamDestroyAll => some .streamDestroyAll

namespace Display

variable (d : Display ι δ)

def drawImage (base : DrawBase) (body : List UInt8) (offset : Nat) (src : Source) :
    Option (Display ι δ × List Rect) :=
  if base.surfaceId ≠ 0 then some ({ d with offSurface := d.offSurface + 1 }, [])
  -- zero is a null image rather than one at the start of the message
  else if offset = 0 ∨ offset + c.descriptorSize > body.length then some (d, [])
  else
    match c.descriptor (body.drop offset) with
    | none => some (d, [])
    | some descriptor =>
      let box := boxOf base
      match c.image d.images descriptor (body.drop (offset + c.descriptorSize)) with
      | (images, none) => some ({ d with images }, [])
      | (images, some image) => do
        match ← fit image src box.w box.h with
        | none => return ({ d with images }, [])
        | some image =>
          let framebuffer ← d.framebuffer.blit box.x box.y image.width image.height image.pixels
          return ({ d with images, framebuffer, dirty := true }, [box])

def fill (base : DrawBase) (colour : UInt32) : Option (Display ι δ × List Rect) :=
  if base.surfaceId ≠ 0 then some ({ d with offSurface := d.offSurface + 1 }, [])
  else do
    let box := boxOf base
    let framebuffer ← d.framebuffer.fill box.x box.y box.w box.h colour
    return ({ d with framebuffer, dirty := true }, [box])

def copyBits (base : DrawBase) (srcX srcY : Nat) : Option (Display ι δ × List Rect) :=
  if base.surfaceId ≠ 0 then some ({ d with offSurface := d.offSurface + 1 }, [])
  else do
    let box := boxOf base
    let framebuffer ← d.framebuffer.copy srcX srcY box.x box.y box.w box.h
    return ({ d with framebuffer, dirty := true }, [box])

/-- A rectangle on the wire given by its edges. -/
def edges (left top right bottom : Nat) : Rect := ⟨left, top, right - left, bottom - top⟩

def insertStream (id : Nat) (stream : Option (Stream δ)) : Display ι δ :=
  { d with streams := fun i => if i = id then stream else d.streams i }

def streamCreate (body : List UInt8) : Display ι δ :=
  if body.length < 50 then d
  else
    match c.forStream (body.getD 9 0) with
    | none => d
    | some decoder =>
      let word i := (readU32 body i).getD 0
      d.insertStream (word 4) (some ⟨edges (word 38) (word 34) (word 46) (word 42), decoder⟩)

/-- The bytes before a stream's packet. -/
def streamHeader (sized : Bool) : Nat := if sized then 36 else 12

def streamPacket (sized : Bool) (body : List UInt8) : List UInt8 :=
  let size := (readU32 body (if sized then 32 else 8)).getD 0
  (body.drop (streamHeader sized)).take (min size (body.length - streamHeader sized))

/-- Where a stream's frame goes: a sized frame says so itself. -/
def streamDest (sized : Bool) (body : List UInt8) (stream : Stream δ) : Rect :=
  let word i := (readU32 body i).getD 0
  if sized then edges (word 20) (word 16) (word 28) (word 24) else stream.dest

def streamData (sized : Bool) (body : List UInt8) : Option (Display ι δ × List Rect) :=
  if body.length < streamHeader sized then some (d, [])
  else
    let id := (readU32 body 0).getD 0
    match d.streams id with
    | none => some (d, [])
    | some stream =>
      let dest := streamDest sized body stream
      match c.frame stream.decoder (streamPacket sized body) with
      | (decoder, none) => some (d.insertStream id (some ⟨dest, decoder⟩), [])
      | (decoder, some frame) => do
        let framebuffer ← d.framebuffer.blit dest.x dest.y frame.width frame.height frame.rgba
        return ({ d.insertStream id (some ⟨dest, decoder⟩) with framebuffer, dirty := true },
          [⟨dest.x, dest.y, min dest.w frame.width, min dest.h frame.height⟩])

/-- A call, with the rectangles it reports as damaged; `none` is a panic. -/
def perform : Call → Option (Display ι δ × List Rect)
  | .drawImage base body offset src => d.drawImage c base body offset src
  | .fill base colour => d.fill base colour
  | .copyBits base srcX srcY => d.copyBits base srcX srcY
  | .streamCreate body => some (d.streamCreate c body, [])
  | .streamData sized body => d.streamData c sized body
  | .streamDestroy id => some (d.insertStream id none, [])
  | .streamDestroyAll => some ({ d with streams := fun _ => none }, [])
  | .nothing => some (d, [])

/-- `Display::message`. One that ends in an error has drawn nothing. -/
def message (type : DisplayMessage) (body : List UInt8) : Option (Display ι δ × List Rect) :=
  match Call.of c type body with
  | none => some (d, [])
  | some call => d.perform c call

end Display

end

/-! ## Damage -/

/-- Every pixel that changed is in a rectangle that is reported, and those are
on the desktop. -/
structure Reported (w h : Nat) (before after : List UInt32) (damage : List Rect) : Prop where
  changed : ∀ x y, x < w → y < h → after[y * w + x]? ≠ before[y * w + x]? → ∃ r ∈ damage, r.Mem x y
  inside : ∀ r ∈ damage, ∀ x y, r.Mem x y → x < w ∧ y < h

theorem Reported.none (w h : Nat) (pixels : List UInt32) : Reported w h pixels pixels [] :=
  ⟨fun _ _ _ _ hne => absurd rfl hne, fun _ hr => by cases hr⟩

/-- A rectangle with no pixel off the desktop. -/
def OnDesktop (r : Rect) (w h : Nat) : Prop := r.w = 0 ∨ r.h = 0 ∨ r.Inside w h

/-- A picture put at the corner of a box stays in the box, where it is on the
desktop. -/
def Covers (box : Rect) (width height w h : Nat) : Prop :=
  box.x < w → box.y < h → 0 < width → 0 < height → min width (w - box.x) ≤ box.w ∧ min height (h - box.y) ≤ box.h

theorem onDesktop_iff {r : Rect} {w h : Nat} : OnDesktop r w h ↔ ∀ x y, r.Mem x y → x < w ∧ y < h := by
  constructor
  · intro hr x y hm
    simp only [OnDesktop, Rect.Inside, Rect.Mem] at hr hm
    omega
  · intro hall
    by_cases hempty : r.w = 0 ∨ r.h = 0
    · rcases hempty with h | h
      · exact .inl h
      · exact .inr (.inl h)
    · -- the corner across lies on the desktop
      have hlast := hall (r.x + r.w - 1) (r.y + r.h - 1) (by simp only [Rect.Mem]; omega)
      refine .inr (.inr ?_)
      simp only [Rect.Inside]
      omega

theorem reported_iff {w h : Nat} {before after : List UInt32} {r : Rect} (hframed : Framed w r before after) :
    Reported w h before after [r] ↔ OnDesktop r w h := by
  rw [onDesktop_iff]
  constructor
  · intro hr
    exact hr.inside r (by simp)
  · intro hinside
    refine ⟨fun x y hx _ hne => ⟨r, by simp, ?_⟩, fun r' hr' => ?_⟩
    · by_contra hm
      exact hne (hframed.pixel x y hx hm)
    · rw [List.mem_singleton.1 hr']
      exact hinside

/-- Some other colour. -/
theorem exists_ne_colour (u : UInt32) : ∃ v, v ≠ u := by
  by_cases hu : u = 0
  · exact ⟨1, by rw [hu]; decide⟩
  · exact ⟨0, Ne.symm hu⟩

/-- A picture is reported by a rectangle at its corner, whatever the pixels are,
exactly when it stays in that rectangle and the rectangle on the desktop. -/
theorem blit_reported_iff (fb : Framebuffer) (r : Rect) (width height : Nat) (src : List UInt8) :
    (∀ pixels, pixels.length = fb.width * fb.height → ∃ after,
      { fb with pixels }.blit r.x r.y width height src = some { fb with pixels := after } ∧
        Reported fb.width fb.height pixels after [r]) ↔
      OnDesktop r fb.width fb.height ∧ (width * height * 4 < 2 ^ 64 → width * height * 4 ≤ src.length →
        Covers r width height fb.width fb.height) := by
  constructor
  · intro hall
    refine ⟨?_, fun hfits hsrc hx hy hw hh => ?_⟩
    · obtain ⟨after, -, hr⟩ := hall (List.replicate (fb.width * fb.height) 0) (by simp)
      exact onDesktop_iff.2 (hr.inside r (by simp))
    · -- a pixel the picture covers is reported: some colour under it changes
      have hcovered : ∀ x y, (⟨r.x, r.y, min width (fb.width - r.x), min height (fb.height - r.y)⟩ : Rect).Mem x y →
          r.Mem x y := by
        intro x y hm
        obtain ⟨v, hv⟩ := exists_ne_colour (Framebuffer.sourcePixel src width (x - r.x) (y - r.y))
        have hlen : (List.replicate (fb.width * fb.height) v).length = fb.width * fb.height := List.length_replicate
        obtain ⟨after, hblit, hr⟩ := hall _ hlen
        obtain ⟨after', hblit', hcase⟩ := Framebuffer.blit_painted { fb with pixels := List.replicate _ v }
          r.x r.y width height src hlen
        obtain rfl : after = after' := by
          have := Option.some.inj (hblit.symm.trans hblit')
          exact congrArg Framebuffer.pixels this
        have hclip := Framebuffer.clip_some { fb with pixels := List.replicate (fb.width * fb.height) v } hx hy hw hh
        have hxy : x < fb.width ∧ y < fb.height := by
          simp only [Rect.Mem] at hm
          omega
        rcases hcase with ⟨hnone, -⟩ | ⟨-, -, r', hc, hp⟩
        · rcases hnone with hn | hn | hn
          · omega
          · omega
          · rw [hclip] at hn
            cases hn
        · rw [hclip] at hc
          cases hc
          obtain ⟨r', hr', hmem⟩ := hr.changed x y hxy.1 hxy.2 (by
            rw [hp.pixel x y hxy.1, if_pos hm, List.getElem?_replicate_of_lt (index_lt hxy.1 hxy.2)]
            intro he
            exact hv (Option.some.inj he).symm)
          rwa [List.mem_singleton.1 hr'] at hmem
      refine ⟨?_, ?_⟩
      · by_contra hlt
        have := hcovered (r.x + r.w) r.y (by simp only [Rect.Mem]; omega)
        simp only [Rect.Mem] at this
        omega
      · by_contra hlt
        have := hcovered r.x (r.y + r.h) (by simp only [Rect.Mem]; omega)
        simp only [Rect.Mem] at this
        omega
  · rintro ⟨hdesktop, hcovers⟩ pixels hlen
    obtain ⟨after, hblit, hcase⟩ := Framebuffer.blit_painted { fb with pixels } r.x r.y width height src hlen
    refine ⟨after, hblit, (reported_iff ?_).2 hdesktop⟩
    rcases hcase with ⟨-, rfl⟩ | ⟨hfits, hsrc, r', hc, hp⟩
    · exact ⟨rfl, fun _ _ _ _ => rfl⟩
    · obtain ⟨rfl, -⟩ := Framebuffer.clip_eq_some hc
      refine hp.framed.mono fun x y hm => ?_
      simp only [Rect.Mem] at hm ⊢
      have hle := hcovers hfits hsrc (by omega) (by omega) (by omega) (by omega)
      omega

/-! ## Which draws are sound -/

section
variable {ι δ κ : Type} (c : Codecs ι δ κ)

namespace Display

variable (d : Display ι δ)

def withPixels (pixels : List UInt32) : Display ι δ := { d with framebuffer := { d.framebuffer with pixels } }

/-- A call reports what it changes, and nothing off the desktop, whatever is on
the desktop. -/
def Sound (call : Call) : Prop :=
  ∀ pixels, pixels.length = d.framebuffer.width * d.framebuffer.height → ∃ d' damage,
    (d.withPixels pixels).perform c call = some (d', damage) ∧
      Reported d.framebuffer.width d.framebuffer.height pixels d'.framebuffer.pixels damage

/-- The box is on the desktop, and what is drawn fits into it there. -/
def Fits : Call → Prop
  | .drawImage base body offset src =>
    base.surfaceId = 0 → offset ≠ 0 → offset + c.descriptorSize ≤ body.length →
      ∀ descriptor ∈ c.descriptor (body.drop offset),
      ∀ image ∈ (c.image d.images descriptor (body.drop (offset + c.descriptorSize))).2,
      ∀ size ∈ drawnSize image src (boxOf base).w (boxOf base).h,
        OnDesktop (boxOf base) d.framebuffer.width d.framebuffer.height ∧
        Covers (boxOf base) size.1 size.2 d.framebuffer.width d.framebuffer.height
  | .fill base _ => base.surfaceId = 0 → OnDesktop (boxOf base) d.framebuffer.width d.framebuffer.height
  | .copyBits base _ _ => base.surfaceId = 0 → OnDesktop (boxOf base) d.framebuffer.width d.framebuffer.height
  | .streamData sized body =>
    streamHeader sized ≤ body.length → ∀ stream ∈ d.streams ((readU32 body 0).getD 0),
      ∀ frame ∈ (c.frame stream.decoder (streamPacket sized body)).2,
        let dest := streamDest sized body stream
        OnDesktop ⟨dest.x, dest.y, min dest.w frame.width, min dest.h frame.height⟩
          d.framebuffer.width d.framebuffer.height ∧
        (frame.width * frame.height * 4 < 2 ^ 64 → frame.width * frame.height * 4 ≤ frame.rgba.length →
          Covers dest frame.width frame.height d.framebuffer.width d.framebuffer.height)
  | _ => True

variable {c d}

/-- A call that draws nothing. -/
theorem sound_of_nothing {call : Call}
    (h : ∀ pixels, ∃ d', (d.withPixels pixels).perform c call = some (d', []) ∧ d'.framebuffer.pixels = pixels) :
    d.Sound c call := by
  intro pixels _
  obtain ⟨d', hperform, hpixels⟩ := h pixels
  refine ⟨d', [], hperform, ?_⟩
  rw [hpixels]
  exact .none _ _ _

/-- A call that stays in the box it reports. -/
theorem sound_iff_onDesktop {call : Call} {box : Rect}
    (h : ∀ pixels, pixels.length = d.framebuffer.width * d.framebuffer.height → ∃ d',
      (d.withPixels pixels).perform c call = some (d', [box]) ∧
        Framed d.framebuffer.width box pixels d'.framebuffer.pixels) :
    d.Sound c call ↔ OnDesktop box d.framebuffer.width d.framebuffer.height := by
  constructor
  · intro hsound
    obtain ⟨d', damage, hperform, hr⟩ := hsound (List.replicate _ 0) List.length_replicate
    obtain ⟨d'', hperform', hframed⟩ := h (List.replicate _ 0) List.length_replicate
    cases hperform.symm.trans hperform'
    exact (reported_iff hframed).1 hr
  · intro hdesktop pixels hlen
    obtain ⟨d', hperform, hframed⟩ := h pixels hlen
    exact ⟨d', _, hperform, (reported_iff hframed).2 hdesktop⟩

/-- A draw for another surface. -/
theorem sound_offSurface {call : Call}
    (h : ∀ pixels, (d.withPixels pixels).perform c call =
      some ({ d.withPixels pixels with offSurface := d.offSurface + 1 }, [])) : d.Sound c call :=
  sound_of_nothing fun pixels => ⟨_, h pixels, rfl⟩

theorem fill_sound_iff (base : DrawBase) (colour : UInt32) :
    d.Sound c (.fill base colour) ↔ d.Fits c (.fill base colour) := by
  by_cases hsurface : base.surfaceId = 0
  · have hiff : d.Sound c (.fill base colour) ↔
        OnDesktop (boxOf base) d.framebuffer.width d.framebuffer.height := by
      apply sound_iff_onDesktop
      intro pixels hlen
      obtain ⟨after, hfill, hframed⟩ := (d.withPixels pixels).framebuffer.fill_painted (boxOf base).x (boxOf base).y
        (boxOf base).w (boxOf base).h colour hlen
      refine ⟨{ d.withPixels after with dirty := true }, ?_, hframed⟩
      rw [perform, fill, if_neg (not_not.2 hsurface)]
      dsimp only
      rw [hfill]
      rfl
    rw [hiff]
    exact ⟨fun h _ => h, fun h => h hsurface⟩
  · refine ⟨fun _ h => absurd h hsurface, fun _ => sound_offSurface fun pixels => ?_⟩
    rw [perform, fill, if_pos hsurface]
    rfl

theorem copyBits_sound_iff (base : DrawBase) (srcX srcY : Nat) :
    d.Sound c (.copyBits base srcX srcY) ↔ d.Fits c (.copyBits base srcX srcY) := by
  by_cases hsurface : base.surfaceId = 0
  · have hiff : d.Sound c (.copyBits base srcX srcY) ↔
        OnDesktop (boxOf base) d.framebuffer.width d.framebuffer.height := by
      apply sound_iff_onDesktop
      intro pixels hlen
      obtain ⟨after, hcopy, hframed⟩ := (d.withPixels pixels).framebuffer.copy_framed srcX srcY (boxOf base).x
        (boxOf base).y (boxOf base).w (boxOf base).h hlen
      refine ⟨{ d.withPixels after with dirty := true }, ?_, hframed⟩
      rw [perform, copyBits, if_neg (not_not.2 hsurface)]
      dsimp only
      rw [hcopy]
      rfl
    rw [hiff]
    exact ⟨fun h _ => h, fun h => h hsurface⟩
  · refine ⟨fun _ h => absurd h hsurface, fun _ => sound_offSurface fun pixels => ?_⟩
    rw [perform, copyBits, if_pos hsurface]
    rfl

/-- A call that puts a picture on the desktop and reports `r`. -/
theorem sound_iff_covers {call : Call} (r : Rect) (width height : Nat) (src : List UInt8) (e : Display ι δ)
    (h : ∀ pixels, (d.withPixels pixels).perform c call =
      (({ d.framebuffer with pixels } : Framebuffer).blit r.x r.y width height src).map fun framebuffer =>
        ({ e with framebuffer }, [r])) :
    d.Sound c call ↔ OnDesktop r d.framebuffer.width d.framebuffer.height ∧
      (width * height * 4 < 2 ^ 64 → width * height * 4 ≤ src.length →
        Covers r width height d.framebuffer.width d.framebuffer.height) := by
  rw [← blit_reported_iff]
  constructor
  · intro hsound pixels hlen
    obtain ⟨d', damage, hperform, hr⟩ := hsound pixels hlen
    obtain ⟨after, hblit, -⟩ := Framebuffer.blit_painted { d.framebuffer with pixels } r.x r.y width height src hlen
    rw [h, hblit] at hperform
    cases hperform
    exact ⟨after, hblit, hr⟩
  · intro hall pixels hlen
    obtain ⟨after, hblit, hr⟩ := hall pixels hlen
    refine ⟨{ e with framebuffer := { d.framebuffer with pixels := after } }, [r], ?_, hr⟩
    rw [h, hblit]
    rfl

theorem drawImage_sound_iff (base : DrawBase) (body : List UInt8) (offset : Nat) (src : Source) :
    d.Sound c (.drawImage base body offset src) ↔ d.Fits c (.drawImage base body offset src) := by
  have hperform : ∀ pixels, (d.withPixels pixels).perform c (.drawImage base body offset src) =
      (d.withPixels pixels).drawImage c base body offset src := fun _ => rfl
  unfold drawImage at hperform
  by_cases hsurface : base.surfaceId = 0
  swap
  · refine ⟨fun _ h => absurd h hsurface, fun _ => sound_offSurface fun pixels => ?_⟩
    rw [hperform, if_pos hsurface]
    rfl
  simp only [if_neg (not_not.2 hsurface)] at hperform
  by_cases hoffset : offset = 0 ∨ offset + c.descriptorSize > body.length
  · simp only [if_pos hoffset] at hperform
    refine ⟨fun _ _ h0 hle => ?_, fun _ => sound_of_nothing fun pixels => ⟨_, hperform pixels, rfl⟩⟩
    omega
  simp only [if_neg hoffset] at hperform
  cases hdescriptor : c.descriptor (body.drop offset) with
  | none =>
    simp only [hdescriptor] at hperform
    refine ⟨fun _ _ _ _ descriptor h => ?_, fun _ => sound_of_nothing fun pixels => ⟨_, hperform pixels, rfl⟩⟩
    rw [hdescriptor] at h
    cases h
  | some descriptor =>
    have himages : ∀ pixels, (d.withPixels pixels).images = d.images := fun _ => rfl
    simp only [hdescriptor, himages] at hperform
    rcases himage : c.image d.images descriptor (body.drop (offset + c.descriptorSize)) with ⟨images, _ | image⟩
    · simp only [himage] at hperform
      refine ⟨fun _ _ _ _ descriptor' h image h' => ?_, fun _ => sound_of_nothing fun pixels => ⟨_, hperform pixels, rfl⟩⟩
      rw [hdescriptor] at h
      cases h
      rw [himage] at h'
      cases h'
    · obtain ⟨fitted, hfit, hsize, hbytes⟩ := fit_spec image src (boxOf base).w (boxOf base).h
      simp only [himage, hfit, Option.bind_eq_bind, Option.bind_some] at hperform
      -- what is left of the condition
      have hfits : d.Fits c (.drawImage base body offset src) ↔
          ∀ size ∈ drawnSize image src (boxOf base).w (boxOf base).h,
            OnDesktop (boxOf base) d.framebuffer.width d.framebuffer.height ∧
            Covers (boxOf base) size.1 size.2 d.framebuffer.width d.framebuffer.height := by
        constructor
        · intro h
          refine h hsurface (by omega) (by omega) descriptor hdescriptor image ?_
          rw [himage]
          rfl
        · intro h _ _ _ descriptor' hd image' hi
          rw [hdescriptor] at hd
          cases hd
          rw [himage] at hi
          cases hi
          exact h
      rw [hfits, ← hsize]
      cases fitted with
      | none =>
        refine ⟨fun _ size h => ?_, fun _ => sound_of_nothing fun pixels => ⟨_, hperform pixels, rfl⟩⟩
        cases h
      | some fitted =>
        obtain ⟨hsmall, hlen⟩ := hbytes fitted rfl
        rw [sound_iff_covers (boxOf base) fitted.width fitted.height fitted.pixels { d with images, dirty := true }]
        · constructor
          · rintro ⟨hdesktop, hcovers⟩ size h
            cases h
            exact ⟨hdesktop, hcovers hsmall hlen.ge⟩
          · intro h
            obtain ⟨hdesktop, hcovers⟩ := h _ rfl
            exact ⟨hdesktop, fun _ _ => hcovers⟩
        · intro pixels
          rw [hperform, Option.map_eq_bind]
          rfl

theorem streamData_sound_iff (sized : Bool) (body : List UInt8) :
    d.Sound c (.streamData sized body) ↔ d.Fits c (.streamData sized body) := by
  have hperform : ∀ pixels, (d.withPixels pixels).perform c (.streamData sized body) =
      (d.withPixels pixels).streamData c sized body := fun _ => rfl
  unfold streamData at hperform
  by_cases hheader : body.length < streamHeader sized
  · simp only [if_pos hheader] at hperform
    refine ⟨fun _ h => ?_, fun _ => sound_of_nothing fun pixels => ⟨_, hperform pixels, rfl⟩⟩
    omega
  have hstreams : ∀ pixels, (d.withPixels pixels).streams = d.streams := fun _ => rfl
  simp only [if_neg hheader, hstreams] at hperform
  cases hstream : d.streams ((readU32 body 0).getD 0) with
  | none =>
    simp only [hstream] at hperform
    refine ⟨fun _ _ stream h => ?_, fun _ => sound_of_nothing fun pixels => ⟨_, hperform pixels, rfl⟩⟩
    rw [hstream] at h
    cases h
  | some stream =>
    simp only [hstream] at hperform
    rcases hframe : c.frame stream.decoder (streamPacket sized body) with ⟨decoder, _ | frame⟩
    · simp only [hframe] at hperform
      refine ⟨fun _ _ stream' h frame h' => ?_, fun _ => sound_of_nothing fun pixels => ⟨_, hperform pixels, rfl⟩⟩
      rw [hstream] at h
      cases h
      rw [hframe] at h'
      cases h'
    · simp only [hframe, Option.bind_eq_bind] at hperform
      have hfits : d.Fits c (.streamData sized body) ↔
          OnDesktop ⟨(streamDest sized body stream).x, (streamDest sized body stream).y,
              min (streamDest sized body stream).w frame.width, min (streamDest sized body stream).h frame.height⟩
            d.framebuffer.width d.framebuffer.height ∧
          (frame.width * frame.height * 4 < 2 ^ 64 → frame.width * frame.height * 4 ≤ frame.rgba.length →
            Covers (streamDest sized body stream) frame.width frame.height d.framebuffer.width d.framebuffer.height) := by
        constructor
        · intro h
          refine h (by omega) stream hstream frame ?_
          rw [hframe]
          rfl
        · intro h _ stream' hs frame' hf
          rw [hstream] at hs
          cases hs
          rw [hframe] at hf
          cases hf
          exact h
      rw [hfits]
      generalize streamDest sized body stream = dest at hperform ⊢
      rw [sound_iff_covers ⟨dest.x, dest.y, min dest.w frame.width, min dest.h frame.height⟩ frame.width frame.height
        frame.rgba { d.insertStream ((readU32 body 0).getD 0) (some ⟨dest, decoder⟩) with dirty := true }]
      · have hcovers : Covers ⟨dest.x, dest.y, min dest.w frame.width, min dest.h frame.height⟩ frame.width frame.height
            d.framebuffer.width d.framebuffer.height ↔
            Covers dest frame.width frame.height d.framebuffer.width d.framebuffer.height := by
          simp only [Covers]
          constructor
          · intro h hx hy hw hh
            have := h hx hy hw hh
            omega
          · intro h hx hy hw hh
            have := h hx hy hw hh
            omega
        rw [hcovers]
      · intro pixels
        rw [hperform, Option.map_eq_bind]
        rfl

end Display

theorem sound_iff_fits (d : Display ι δ) (call : Call) : d.Sound c call ↔ d.Fits c call := by
  cases call with
  | drawImage base body offset src => exact Display.drawImage_sound_iff base body offset src
  | fill base colour => exact Display.fill_sound_iff base colour
  | copyBits base srcX srcY => exact Display.copyBits_sound_iff base srcX srcY
  | streamData sized body => exact Display.streamData_sound_iff sized body
  | streamCreate body =>
    refine ⟨fun _ => trivial, fun _ => Display.sound_of_nothing fun pixels => ⟨_, rfl, ?_⟩⟩
    unfold Display.streamCreate
    split
    · rfl
    · split <;> rfl
  | streamDestroy id => exact ⟨fun _ => trivial, fun _ => Display.sound_of_nothing fun pixels => ⟨_, rfl, rfl⟩⟩
  | streamDestroyAll => exact ⟨fun _ => trivial, fun _ => Display.sound_of_nothing fun pixels => ⟨_, rfl, rfl⟩⟩
  | nothing => exact ⟨fun _ => trivial, fun _ => Display.sound_of_nothing fun pixels => ⟨_, rfl, rfl⟩⟩

/-- A message reports what it changes, and nothing off the desktop, whatever is
on the desktop. -/
def SoundMessage (d : Display ι δ) (type : DisplayMessage) (body : List UInt8) : Prop :=
  ∀ pixels, pixels.length = d.framebuffer.width * d.framebuffer.height → ∃ d' damage,
    (d.withPixels pixels).message c type body = some (d', damage) ∧
      Reported d.framebuffer.width d.framebuffer.height pixels d'.framebuffer.pixels damage

theorem soundMessage_iff_sound (d : Display ι δ) (type : DisplayMessage) (body : List UInt8) :
    SoundMessage c d type body ↔ ∀ call ∈ Call.of c type body, d.Sound c call := by
  have hmessage : ∀ pixels, (d.withPixels pixels).message c type body =
      match Call.of c type body with
      | none => some (d.withPixels pixels, [])
      | some call => (d.withPixels pixels).perform c call := fun _ => rfl
  cases hcall : Call.of c type body with
  | none =>
    simp only [hcall] at hmessage
    exact ⟨fun _ call h => (by cases h), fun _ pixels _ => ⟨_, _, hmessage pixels, .none _ _ _⟩⟩
  | some call =>
    simp only [hcall] at hmessage
    constructor
    · intro h call' hc pixels hlen
      cases hc
      obtain ⟨d', damage, hm, hr⟩ := h pixels hlen
      exact ⟨d', damage, (hmessage pixels).symm.trans hm, hr⟩
    · intro h pixels hlen
      obtain ⟨d', damage, hp, hr⟩ := h call rfl pixels hlen
      exact ⟨d', damage, (hmessage pixels).trans hp, hr⟩

/-- The damage of a message is sound, whatever is on the desktop, exactly when
what it draws fits into its box and the box on the desktop. -/
theorem damage_sound_iff (d : Display ι δ) (type : DisplayMessage) (body : List UInt8) :
    SoundMessage c d type body ↔ ∀ call ∈ Call.of c type body, d.Fits c call := by
  rw [soundMessage_iff_sound]
  refine forall₂_congr fun call _ => ?_
  exact sound_iff_fits c d call

end

/-- The base of a draw without a clip list, and decoders for which every image
and every frame is two red pixels. -/
def twoPixels : Codecs Unit Unit Unit where
  drawBase body :=
    let word i := (readU32 body i).getD 0
    some (⟨word 0, word 8, word 4, word 16, word 12⟩, 21)
  opaqueFields _ := none
  brush _ := none
  descriptor _ := some ()
  descriptorSize := 18
  image _ _ _ := ((), some ⟨2, 1, [255, 0, 0, 255, 255, 0, 0, 255]⟩)
  forStream _ := some ()
  frame _ _ := ((), some ⟨2, 1, [255, 0, 0, 255, 255, 0, 0, 255]⟩)

/-- A desktop of two pixels, with a stream that goes to the first. -/
def twoByOne : Display Unit Unit where
  framebuffer := ⟨2, 1, [0xff000000, 0xff000000]⟩
  images := ()
  streams id := if id = 0 then some ⟨⟨0, 0, 1, 1⟩, ()⟩ else none
  dirty := false
  offSurface := 0

/-- A draw's base for the box of that width at the origin. -/
def boxBytes (width : UInt8) : List UInt8 :=
  [0, 0, 0, 0, 0, 0, 0, 0, 0, 0, 0, 0, 1, 0, 0, 0, width, 0, 0, 0, 0]

/-- A frame larger than its stream and an image whose source rectangle is empty
change a pixel next to the box; a box past the edge is reported as it is. -/
theorem damage_unsound :
    ¬ SoundMessage twoPixels twoByOne .streamData (List.replicate 12 0) ∧
    ¬ SoundMessage twoPixels twoByOne .drawCopy (boxBytes 1 ++ ([41, 0, 0, 0] ++ List.replicate 34 0)) ∧
    ¬ SoundMessage twoPixels twoByOne .drawBlackness (boxBytes 3) := by
  refine ⟨fun h => ?_, fun h => ?_, fun h => ?_⟩
  · have hsound := (soundMessage_iff_sound _ _ _ _).1 h _ rfl
    rw [Display.streamData_sound_iff] at hsound
    obtain ⟨-, hcovers⟩ := hsound (by decide) _ rfl _ rfl
    exact absurd (hcovers (by decide) (by decide) (by decide) (by decide) (by decide) (by decide)).1 (by decide)
  · have hsound := (soundMessage_iff_sound _ _ _ _).1 h _ rfl
    rw [Display.drawImage_sound_iff] at hsound
    obtain ⟨-, hcovers⟩ := hsound rfl (by decide) (by decide) () rfl _ rfl (2, 1) rfl
    exact absurd (hcovers (by decide) (by decide) (by decide) (by decide)).1 (by decide)
  · have hsound := (soundMessage_iff_sound _ _ _ _).1 h _ rfl
    rw [Display.fill_sound_iff] at hsound
    rcases hsound rfl with hw | hh | hinside
    · exact absurd hw (by decide)
    · exact absurd hh (by decide)
    · exact absurd hinside.1 (by decide)

end Vento.Spice
