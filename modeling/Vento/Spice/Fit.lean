import Vento.Lib.Loop
import Vento.Spice.Display
/-!
# An image in its box

`fit` of `spice/src/images.rs`, with its arithmetic checked as well as its indexes: `fitIn limit` is `none` where a
`usize` below `limit`, or the scale's 64 bits, would overflow. There is no such image, area and box (`fitIn_eq`), so what
is said of `fit` is said of it.

`fit_exact`: an area that is in the image anywhere is scaled to its box, each pixel the one at its place in the area. One
that is not leaves the image as it is, whatever the box, and a box that no desktop could hold is refused.
-/

namespace Vento.Spice

open Vento.Lib

/-! ## The code, with its arithmetic -/

def mulIn (limit a b : Nat) : Option Nat := if a * b < limit then some (a * b) else none

def addIn (limit a b : Nat) : Option Nat := if a + b < limit then some (a + b) else none

/-- `(at as u64 * crop as u64 / of as u64) as usize`. -/
def scaleIn (limit i crop size : Nat) : Option Nat := do
  let n ← mulIn (2 ^ 64) i crop
  if size = 0 then none else some (n / size % limit)

/-- `(row * width + column) * 4`. -/
def indexIn (limit row width column : Nat) : Option Nat := do
  mulIn limit (← addIn limit (← mulIn limit row width) column) 4

def fitIn (limit : Nat) (image : Image) (src : Source) (width height : Nat) : Option (Option Image) :=
  let claimed := (mulIn limit image.width image.height).bind (mulIn limit · 4)
  if claimed ≠ some image.pixels.length then some none
  else
    let left := min src.left image.width
    let top := min src.top image.height
    let cropW := min src.right image.width - left
    let cropH := min src.bottom image.height - top
    if cropW = 0 ∨ cropH = 0 then some (some image)
    else if left = 0 ∧ top = 0 ∧ cropW = image.width ∧ cropH = image.height ∧
        (width = 0 ∨ height = 0 ∨ (width = image.width ∧ height = image.height)) then some (some image)
    else
      let w := if width = 0 ∨ height = 0 then cropW else width
      let h := if width = 0 ∨ height = 0 then cropH else height
      match (mulIn limit w h).filter (· ≤ maxDesktopPixels) with
      | none => some none
      | some count => do
        let pixels := List.replicate (← mulIn limit count 4) 0
        let pixels ← loop (fun y pixels => do
          let sy ← addIn limit top (← scaleIn limit y cropH h)
          loop (fun x pixels => do
            let sx ← addIn limit left (← scaleIn limit x cropW w)
            let source ← indexIn limit sy image.width sx
            let target ← indexIn limit y w x
            copyFromSlice pixels target (← addIn limit target 4) (← slice image.pixels source (← addIn limit source 4))) 0 w pixels) 0 h pixels
        return some ⟨w, h, pixels⟩

/-! ## Pixels -/

namespace Image

/-- An image that has the pixels that its size claims. -/
def Whole (i : Image) : Prop := i.width * i.height * 4 = i.pixels.length

instance (i : Image) : Decidable i.Whole := inferInstanceAs (Decidable (_ = _))

def pixel (i : Image) (x y : Nat) : List UInt8 := (i.pixels.drop ((y * i.width + x) * 4)).take 4

end Image

/-- An area of an image, as much of it as is there. -/
def Source.clip (src : Source) (i : Image) : Rect where
  x := min src.left i.width
  y := min src.top i.height
  w := min src.right i.width - min src.left i.width
  h := min src.bottom i.height - min src.top i.height

/-- The area of the image at the size of the box, each pixel the one at its place in the area. -/
structure Fitted (image : Image) (area : Rect) (width height : Nat) (out : Image) : Prop where
  size : out.width = width ∧ out.height = height
  length : out.pixels.length = width * height * 4
  pixel : ∀ x y, x < width → y < height →
    out.pixel x y = image.pixel (area.x + x * area.w / width) (area.y + y * area.h / height)

theorem slice_pixel {i : Image} (hi : i.Whole) {x y : Nat} (hx : x < i.width) (hy : y < i.height) :
    slice i.pixels ((y * i.width + x) * 4) ((y * i.width + x) * 4 + 4) = some (i.pixel x y) ∧ (i.pixel x y).length = 4 := by
  have hindex := index_lt hx hy
  unfold Image.Whole at hi
  have hs : slice i.pixels ((y * i.width + x) * 4) ((y * i.width + x) * 4 + 4) = some (i.pixel x y) :=
    slice_eq_some.2 ⟨by omega, by omega, by rw [Image.pixel, List.drop_take, Nat.add_sub_cancel_left]⟩
  exact ⟨hs, by rw [slice_length hs]; omega⟩

/-! ## Nothing overflows -/

section

variable {limit : Nat}

theorem scaleIn_eq (hlimit : 2 ^ 32 ≤ limit) {i crop size : Nat} (hi : i < size) (hsize : size ≤ maxDesktopPixels)
    (hpos : 0 < crop) (hcrop : crop < 2 ^ 32) : scaleIn limit i crop size = some (scale i crop size) := by
  have hmax : maxDesktopPixels = 33554432 := rfl
  have hlt := scale_lt hi hpos
  have hmul : i * crop < 2 ^ 64 := by
    calc i * crop ≤ 33554432 * 2 ^ 32 := Nat.mul_le_mul (by omega) (Nat.le_of_lt hcrop)
      _ < 2 ^ 64 := by decide
  unfold scaleIn mulIn
  rw [if_pos hmul, Option.bind_eq_bind, Option.bind_some, if_neg (by omega)]
  exact congrArg some (Nat.mod_eq_of_lt (by unfold scale at hlt; omega))

theorem indexIn_eq {row width column : Nat} (h : (row * width + column) * 4 < limit) :
    indexIn limit row width column = some ((row * width + column) * 4) := by
  unfold indexIn mulIn addIn
  rw [if_pos (by omega), Option.bind_eq_bind, Option.bind_some, if_pos (by omega), Option.bind_some, if_pos h]

/-- The first `n` of the pixels, and none after them. -/
def filled (px : Nat → List UInt8) (count n : Nat) : List UInt8 :=
  (List.range n).flatMap px ++ List.replicate ((count - n) * 4) 0

theorem flatMap_range_length {px : Nat → List UInt8} {n : Nat} (hpx : ∀ k < n, (px k).length = 4) :
    ((List.range n).flatMap px).length = n * 4 := by
  induction n with
  | zero => rfl
  | succ n ih =>
    rw [List.range_succ, List.flatMap_append, List.length_append, ih fun k hk => hpx k (Nat.lt_succ_of_lt hk),
      List.flatMap_singleton, hpx n (Nat.lt_succ_self n), Nat.succ_mul]

theorem copy_filled {px : Nat → List UInt8} {count n : Nat} (hpx : ∀ k < count, (px k).length = 4) (hn : n < count) :
    copyFromSlice (filled px count n) (n * 4) (n * 4 + 4) (px n) = some (filled px count (n + 1)) := by
  have hlen := flatMap_range_length fun k hk => hpx k (Nat.lt_trans hk hn)
  have hn4 := hpx n hn
  refine copyFromSlice_eq_some.2 ⟨by omega, ?_, by omega, ?_⟩
  · rw [filled, List.length_append, hlen, List.length_replicate]
    omega
  · have htake : (filled px count n).take (n * 4) = (List.range n).flatMap px := List.take_left' hlen
    have hdrop : (filled px count n).drop (n * 4 + 4) = List.replicate ((count - (n + 1)) * 4) 0 := by
      rw [filled, ← hlen, List.drop_length_add_append, List.drop_replicate]
      congr 1
      omega
    rw [htake, hdrop, filled, List.range_succ, List.flatMap_append, List.flatMap_singleton]

variable {image : Image} {area : Rect} {w h : Nat}

/-- The pixel of the area that the box shows at `k`, row by row. -/
def shown (image : Image) (area : Rect) (w h k : Nat) : List UInt8 :=
  image.pixel (area.x + scale (k % w) area.w w) (area.y + scale (k / w) area.h h)

/-- An area that is in the image and not empty. -/
structure Inside (area : Rect) (image : Image) : Prop where
  right : area.x + area.w ≤ image.width
  bottom : area.y + area.h ≤ image.height
  wide : 0 < area.w
  high : 0 < area.h

theorem slice_shown (hi : image.Whole) (ha : Inside area image) {x y : Nat} (hx : x < w) (hy : y < h) :
    (area.y + scale y area.h h) * image.width + (area.x + scale x area.w w) < image.width * image.height ∧
    slice image.pixels (((area.y + scale y area.h h) * image.width + (area.x + scale x area.w w)) * 4)
      (((area.y + scale y area.h h) * image.width + (area.x + scale x area.w w)) * 4 + 4) =
        some (shown image area w h (y * w + x)) ∧
    (shown image area w h (y * w + x)).length = 4 := by
  have hsx := scale_lt hx ha.wide
  have hsy := scale_lt hy ha.high
  have hright := ha.right
  have hbottom := ha.bottom
  have hxi : area.x + scale x area.w w < image.width := by omega
  have hyi : area.y + scale y area.h h < image.height := by omega
  have hmod : (y * w + x) % w = x := by rw [Nat.mul_comm, Nat.mul_add_mod, Nat.mod_eq_of_lt hx]
  have hdiv : (y * w + x) / w = y := by
    rw [Nat.mul_comm, Nat.mul_add_div (by omega), Nat.div_eq_of_lt hx, Nat.add_zero]
  rw [shown, hmod, hdiv]
  exact ⟨index_lt hxi hyi, slice_pixel hi hxi hyi⟩

theorem shown_length (hi : image.Whole) (ha : Inside area image) {k : Nat} (hk : k < w * h) :
    (shown image area w h k).length = 4 := by
  have hw : 0 < w := Nat.pos_of_ne_zero fun h0 => by simp [h0] at hk
  have := (slice_shown hi ha (Nat.mod_lt k hw) (Nat.div_lt_of_lt_mul hk)).2.2
  rwa [Nat.mul_comm, Nat.div_add_mod] at this

theorem loops_eq (hlimit : 2 ^ 32 ≤ limit) (hi : image.Whole) (hlen : image.pixels.length < limit) (ha : Inside area image)
    (haw : area.w < 2 ^ 32) (hah : area.h < 2 ^ 32) (hw : 0 < w) (hh : 0 < h) (hcount : w * h ≤ maxDesktopPixels) :
    loop (fun y pixels => do
        let sy ← addIn limit area.y (← scaleIn limit y area.h h)
        loop (fun x pixels => do
          let sx ← addIn limit area.x (← scaleIn limit x area.w w)
          let source ← indexIn limit sy image.width sx
          let target ← indexIn limit y w x
          copyFromSlice pixels target (← addIn limit target 4)
            (← slice image.pixels source (← addIn limit source 4))) 0 w pixels) 0 h (filled (shown image area w h) (w * h) 0) =
      some ((List.range (w * h)).flatMap (shown image area w h)) := by
  have hmax : maxDesktopPixels = 33554432 := rfl
  have hwide : w ≤ w * h := Nat.le_mul_of_pos_right w hh
  have htall : h ≤ w * h := Nat.le_mul_of_pos_left h hw
  have hpixel : ∀ y x, y < h → x < w → (do
      let sx ← addIn limit area.x (← scaleIn limit x area.w w)
      let source ← indexIn limit (area.y + scale y area.h h) image.width sx
      let target ← indexIn limit y w x
      copyFromSlice (filled (shown image area w h) (w * h) (y * w + x)) target (← addIn limit target 4)
        (← slice image.pixels source (← addIn limit source 4))) =
      some (filled (shown image area w h) (w * h) (y * w + (x + 1))) := by
    intro y x hy hx
    have hindex := index_lt hx hy
    obtain ⟨hin, hslice, -⟩ := slice_shown hi ha hx hy
    have hsx := scale_lt hx ha.wide
    have hright := ha.right
    have hwhole : image.width * image.height * 4 = image.pixels.length := hi
    have himage : image.width ≤ image.width * image.height := Nat.le_mul_of_pos_right _ (Nat.pos_of_ne_zero fun h0 => by
      rw [h0, Nat.mul_zero] at hin
      omega)
    have hadd : addIn limit area.x (scale x area.w w) = some (area.x + scale x area.w w) := if_pos (by omega)
    have hsource := indexIn_eq (show ((area.y + scale y area.h h) * image.width + (area.x + scale x area.w w)) * 4 < limit by
      omega)
    have htarget := indexIn_eq (show (y * w + x) * 4 < limit by omega)
    have hsource4 : addIn limit (((area.y + scale y area.h h) * image.width + (area.x + scale x area.w w)) * 4) 4 = some _ :=
      if_pos (by omega)
    have htarget4 : addIn limit ((y * w + x) * 4) 4 = some ((y * w + x) * 4 + 4) := if_pos (by omega)
    simp only [scaleIn_eq hlimit hx (by omega) ha.wide haw, hadd, hsource, htarget, hsource4, htarget4, hslice,
      Option.bind_eq_bind, Option.bind_some]
    exact copy_filled (fun k hk => shown_length hi ha hk) hindex
  have hrow : ∀ y s, 0 ≤ y → y < 0 + h → s = filled (shown image area w h) (w * h) (y * w) → ∃ s', (do
      let sy ← addIn limit area.y (← scaleIn limit y area.h h)
      loop (fun x pixels => do
        let sx ← addIn limit area.x (← scaleIn limit x area.w w)
        let source ← indexIn limit sy image.width sx
        let target ← indexIn limit y w x
        copyFromSlice pixels target (← addIn limit target 4)
          (← slice image.pixels source (← addIn limit source 4))) 0 w s) = some s' ∧
      s' = filled (shown image area w h) (w * h) ((y + 1) * w) := by
    intro y s _ hy hs
    obtain ⟨hin, -, -⟩ := slice_shown hi ha hw (show y < h by omega)
    have hsy := scale_lt (show y < h by omega) ha.high
    have hbottom := ha.bottom
    have hwhole : image.width * image.height * 4 = image.pixels.length := hi
    have himage : image.height ≤ image.width * image.height := Nat.le_mul_of_pos_left _ (Nat.pos_of_ne_zero fun h0 => by
      rw [h0, Nat.zero_mul] at hin
      omega)
    have hadd : addIn limit area.y (scale y area.h h) = some (area.y + scale y area.h h) := if_pos (by omega)
    simp only [scaleIn_eq hlimit (show y < h by omega) (by omega) ha.high hah, hadd, Option.bind_eq_bind, Option.bind_some]
    obtain ⟨s', hloop, hs'⟩ := loop_spec (fun x s => s = filled (shown image area w h) (w * h) (y * w + x)) (n := w) (k := 0)
      (s := s) hs (fun x s _ hx hs => ⟨_, hs ▸ hpixel y x (by omega) (by omega), rfl⟩)
    exact ⟨s', hloop, by rw [hs', Nat.zero_add, Nat.succ_mul]⟩
  obtain ⟨s', hloop, hs'⟩ := loop_spec (fun y s => s = filled (shown image area w h) (w * h) (y * w)) (n := h) (k := 0)
    (s := filled (shown image area w h) (w * h) 0) (by rw [Nat.zero_mul]) hrow
  rw [hloop, hs', Nat.zero_add, Nat.mul_comm h w, filled, Nat.sub_self, Nat.zero_mul, List.replicate_zero, List.append_nil]

theorem clip_inside {src : Source} (hw : 0 < (src.clip image).w) (hh : 0 < (src.clip image).h) : Inside (src.clip image) image := by
  refine ⟨?_, ?_, hw, hh⟩
  · simp only [Source.clip] at hw ⊢
    omega
  · simp only [Source.clip] at hh ⊢
    omega

theorem clip_lt {src : Source} (hright : src.right < 2 ^ 32) (hbottom : src.bottom < 2 ^ 32) (image : Image) :
    (src.clip image).w < 2 ^ 32 ∧ (src.clip image).h < 2 ^ 32 := by
  constructor
  · exact lt_of_le_of_lt (Nat.sub_le _ _) (lt_of_le_of_lt (Nat.min_le_left _ _) hright)
  · exact lt_of_le_of_lt (Nat.sub_le _ _) (lt_of_le_of_lt (Nat.min_le_left _ _) hbottom)

/-- A side of the box, where one that is empty takes the area's. -/
theorem side_pos {width height crop side : Nat} (hcrop : 0 < crop) (hside : ¬(width = 0 ∨ height = 0) → 0 < side) :
    0 < if width = 0 ∨ height = 0 then crop else side := by
  split
  · exact hcrop
  · next h => exact hside h

/-- `fit`'s own pixels, in the same order. -/
theorem fit_rows (hi : image.Whole) (ha : Inside area image) :
    ((List.range h).mapM fun y => (List.range w).mapM fun x =>
        let start := ((area.y + scale y area.h h) * image.width + (area.x + scale x area.w w)) * 4
        slice image.pixels start (start + 4)) =
      some ((List.range h).map fun y => (List.range w).map fun x => shown image area w h (y * w + x)) := by
  apply mapM_eq_map
  intro y hy
  apply mapM_eq_map
  intro x hx
  exact (slice_shown hi ha (List.mem_range.1 hx) (List.mem_range.1 hy)).2.1

theorem flatten_shown (w h : Nat) (px : Nat → List UInt8) :
    ((List.range h).map fun y => (List.range w).map fun x => px (y * w + x)).flatten.flatten =
      (List.range (w * h)).flatMap px := by
  rw [Nat.mul_comm, List.flatMap, map_range_mul]
  rfl

theorem claimed_iff (hlen : image.pixels.length < limit) :
    (mulIn limit image.width image.height).bind (mulIn limit · 4) = some image.pixels.length ↔ image.Whole := by
  unfold Image.Whole mulIn
  constructor
  · intro h
    split at h
    · rw [Option.bind_some] at h
      split at h
      · exact Option.some.inj h
      · cases h
    · cases h
  · intro h
    rw [if_pos (by omega), Option.bind_some, if_pos (by omega), h]

theorem filter_count (hlimit : 2 ^ 32 ≤ limit) (w h : Nat) :
    (mulIn limit w h).filter (· ≤ maxDesktopPixels) = if w * h > maxDesktopPixels then none else some (w * h) := by
  have hmax : maxDesktopPixels = 33554432 := rfl
  unfold mulIn
  split
  · split
    · rw [Option.filter_some, if_neg (by simp; omega)]
    · rw [Option.filter_some, if_pos (by simp; omega)]
  · rw [if_pos (by omega)]
    rfl

/-- `fit` in machine words, of either width: nothing overflows. -/
theorem fitIn_eq (hlimit : 2 ^ 32 ≤ limit) (hlimit' : limit ≤ 2 ^ 64) (hlen : image.pixels.length < limit) {src : Source}
    (hright : src.right < 2 ^ 32) (hbottom : src.bottom < 2 ^ 32) (width height : Nat) :
    fitIn limit image src width height = fit image src width height := by
  unfold fitIn fit
  dsimp only
  by_cases hi : image.Whole
  · have hwhole : ¬(image.width * image.height * 4 ≥ 2 ^ 64 ∨ image.width * image.height * 4 ≠ image.pixels.length) := by
      unfold Image.Whole at hi
      omega
    rw [if_neg (not_not.2 ((claimed_iff hlen).2 hi)), if_neg hwhole]
    split
    · rfl
    · rename_i hcrop
      split
      · rfl
      · rw [filter_count hlimit]
        generalize hw : (if width = 0 ∨ height = 0 then min src.right image.width - min src.left image.width else width) = w
        generalize hh : (if width = 0 ∨ height = 0 then min src.bottom image.height - min src.top image.height else height) = h
        have hmax : maxDesktopPixels = 33554432 := rfl
        by_cases hcount : w * h > maxDesktopPixels
        · rw [if_pos hcount, if_pos hcount]
        · obtain ⟨hcropW, hcropH⟩ := not_or.1 hcrop
          have hposW : 0 < w := hw ▸ side_pos (Nat.pos_of_ne_zero hcropW) fun h => Nat.pos_of_ne_zero (not_or.1 h).1
          have hposH : 0 < h := hh ▸ side_pos (Nat.pos_of_ne_zero hcropH) fun h => Nat.pos_of_ne_zero (not_or.1 h).2
          have ha : Inside (src.clip image) image := clip_inside (Nat.pos_of_ne_zero hcropW) (Nat.pos_of_ne_zero hcropH)
          have hle : w * h ≤ maxDesktopPixels := Nat.le_of_not_lt hcount
          have hfour : mulIn limit (w * h) 4 = some (w * h * 4) := by
            clear hw hh hcrop hcropW hcropH
            exact if_pos (by omega)
          obtain ⟨hltW, hltH⟩ := clip_lt hright hbottom image
          have hloops := loops_eq hlimit hi hlen ha hltW hltH hposW hposH hle
          have hzero : filled (shown image (src.clip image) w h) (w * h) 0 = List.replicate (w * h * 4) 0 := rfl
          have hrows := fit_rows (w := w) (h := h) hi ha
          rw [hzero] at hloops
          simp only [Source.clip, Option.bind_eq_bind] at hloops hrows
          rw [if_neg hcount, if_neg hcount]
          simp only [hfour, hloops, hrows, Option.bind_eq_bind, Option.bind_some, Option.pure_def]
          rw [flatten_shown]
  · have hpart : image.width * image.height * 4 ≥ 2 ^ 64 ∨ image.width * image.height * 4 ≠ image.pixels.length := .inr hi
    rw [if_pos (mt (claimed_iff hlen).1 hi), if_pos hpart]

/-! ## What is drawn -/

theorem fitted_self (hi : image.Whole) (hw : 0 < image.width) (hh : 0 < image.height) :
    Fitted image ⟨0, 0, image.width, image.height⟩ image.width image.height image where
  size := ⟨rfl, rfl⟩
  length := hi.symm
  pixel x y _ _ := by simp only [Nat.zero_add, Nat.mul_div_cancel x hw, Nat.mul_div_cancel y hh]

theorem fitted_shown (hi : image.Whole) (ha : Inside area image) :
    Fitted image area w h ⟨w, h, (List.range (w * h)).flatMap (shown image area w h)⟩ where
  size := ⟨rfl, rfl⟩
  length := flatMap_range_length fun k hk => shown_length hi ha hk
  pixel x y hx hy := by
    have hk : y * w + x < ((List.range (w * h)).map (shown image area w h)).length := by
      simpa using index_lt hx hy
    have hfour : ∀ bytes ∈ (List.range (w * h)).map (shown image area w h), bytes.length = 4 := by
      intro bytes hb
      obtain ⟨k, hk, rfl⟩ := List.mem_map.1 hb
      exact shown_length hi ha (List.mem_range.1 hk)
    have hmod : (y * w + x) % w = x := by rw [Nat.mul_comm, Nat.mul_add_mod, Nat.mod_eq_of_lt hx]
    have hdiv : (y * w + x) / w = y := by
      rw [Nat.mul_comm, Nat.mul_add_div (by omega), Nat.div_eq_of_lt hx, Nat.add_zero]
    obtain ⟨-, -, hslice⟩ := slice_eq_some.1 (slice_flatten hfour hk)
    rw [List.drop_take, Nat.add_sub_cancel_left] at hslice
    rw [Image.pixel, List.flatMap]
    refine hslice.symm.trans ?_
    rw [List.getElem_map, List.getElem_range, shown, hmod, hdiv]
    rfl

/-- An image of the size it claims, any area (the words that the server sends, of any size) and any box that is not empty:
what is drawn, with no index out of range and nothing that overflows. -/
theorem fit_exact (hlimit : 2 ^ 32 ≤ limit) (hlimit' : limit ≤ 2 ^ 64) (hi : image.Whole) (hlen : image.pixels.length < limit)
    (left top right bottom : UInt32) {width height : Nat} (hw : 0 < width) (hh : 0 < height) :
    let src : Source := ⟨left.toNat, top.toNat, right.toNat, bottom.toNat⟩
    let area := src.clip image
    let whole := area = ⟨0, 0, image.width, image.height⟩ ∧ width = image.width ∧ height = image.height
    (area.w = 0 ∨ area.h = 0 → fitIn limit image src width height = some (some image)) ∧
    (0 < area.w → 0 < area.h → width * height ≤ maxDesktopPixels ∨ whole →
      ∃ out, fitIn limit image src width height = some (some out) ∧ Fitted image area width height out) ∧
    (0 < area.w → 0 < area.h → ¬(width * height ≤ maxDesktopPixels ∨ whole) →
      fitIn limit image src width height = some none) := by
  intro src area whole
  rw [fitIn_eq hlimit hlimit' hlen right.toNat_lt bottom.toNat_lt]
  have hwhole : ¬(image.width * image.height * 4 ≥ 2 ^ 64 ∨ image.width * image.height * 4 ≠ image.pixels.length) := by
    unfold Image.Whole at hi
    omega
  have hbox : ¬(width = 0 ∨ height = 0) := by omega
  have hfast : (min src.left image.width = 0 ∧ min src.top image.height = 0 ∧
      min src.right image.width - min src.left image.width = image.width ∧
      min src.bottom image.height - min src.top image.height = image.height ∧
      (width = 0 ∨ height = 0 ∨ (width = image.width ∧ height = image.height))) ↔ whole := by
    simp only [whole, area, Source.clip, Rect.mk.injEq]
    omega
  have hsome : 0 < area.w → 0 < area.h → ¬(min src.right image.width - min src.left image.width = 0 ∨
      min src.bottom image.height - min src.top image.height = 0) := by
    simp only [area, Source.clip]
    omega
  unfold fit
  dsimp only
  rw [if_neg hwhole]
  simp only [hfast, if_neg hbox]
  refine ⟨fun hempty => if_pos hempty, fun hcw hch hfits => ?_, fun hcw hch hbig => ?_⟩
  · have ha : Inside area image := clip_inside hcw hch
    rw [if_neg (hsome hcw hch)]
    by_cases hself : whole
    · rw [if_pos hself]
      obtain ⟨harea, rfl, rfl⟩ := hself
      exact ⟨image, rfl, harea ▸ fitted_self hi hw hh⟩
    · have hcount := hfits.resolve_right hself
      have hrows := fit_rows (w := width) (h := height) hi ha
      rw [if_neg hself, if_neg (by omega)]
      simp only [area, Source.clip] at hrows
      rw [hrows, Option.bind_eq_bind, Option.bind_some, flatten_shown]
      exact ⟨_, rfl, fitted_shown hi ha⟩
  · rw [if_neg (hsome hcw hch), if_neg (fun hself => hbig (.inr hself)),
      if_pos (by omega)]

end

/-- Two pixels into a box of four columns and two rows, on a phone. -/
theorem fit_exact_stretched : ∃ out,
    fitIn (2 ^ 32) ⟨2, 1, [0, 0, 0, 0xff, 10, 0, 0, 0xff]⟩ ⟨0, 0, 2, 1⟩ 4 2 = some (some out) ∧
      Fitted ⟨2, 1, [0, 0, 0, 0xff, 10, 0, 0, 0xff]⟩ ⟨0, 0, 2, 1⟩ 4 2 out :=
  (fit_exact (Nat.le_refl _) (by decide) (by decide) (by decide) 0 0 2 1 (by decide) (by decide)).2.1 (by decide) (by decide)
    (.inl (by decide))

/-- An area beside the image: a box of two pixels is given the image's one. -/
theorem fit_beside : ¬∃ out, fitIn (2 ^ 64) ⟨1, 1, [1, 2, 3, 4]⟩ ⟨1, 0, 2, 1⟩ 2 1 = some (some out) ∧
    out.pixels.length = 2 * 1 * 4 := by
  rintro ⟨out, hout, hlen⟩
  have hrun : fitIn (2 ^ 64) ⟨1, 1, [1, 2, 3, 4]⟩ ⟨1, 0, 2, 1⟩ 2 1 = some (some ⟨1, 1, [1, 2, 3, 4]⟩) := by decide
  cases hrun.symm.trans hout
  exact absurd hlen (by decide)

end Vento.Spice
