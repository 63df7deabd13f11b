import Vento.Lib.Java
import Vento.Lib.Sampling
/-!
# Where the desktop lands in the window

`linux/src/gui/view.rs`, and `source_rect` of `pane.rs` beside it: the scale modes, the layout of what is shown in a
window, and the two mappings of a pointer back onto the desktop. An `f32` is a rational, so what is proved is about the
rules and not about their rounding, and a `Vec2` or a `Pos2` is a number for each axis.

A cast of a float to an integer stops at the integer's limits, as Java's does.
-/

namespace Vento.Linux.Gui

open Vento.Lib Sampling

inductive Axis where
  | x
  | y
deriving DecidableEq, Repr

def Axis.other : Axis → Axis
  | .x => .y
  | .y => .x

abbrev Vec2 := Axis → ℚ

abbrev Pos2 := Axis → ℚ

structure Rect where
  min : Pos2
  max : Pos2

namespace Rect

def size (r : Rect) : Vec2 := r.max - r.min

def fromMinSize (min : Pos2) (size : Vec2) : Rect := ⟨min, min + size⟩

/-- Its edges are of it. -/
def contains (r : Rect) (pos : Pos2) : Prop :=
  (r.min .x ≤ pos .x ∧ pos .x ≤ r.max .x) ∧ r.min .y ≤ pos .y ∧ pos .y ≤ r.max .y

instance (r : Rect) (pos : Pos2) : Decidable (r.contains pos) := inferInstanceAs (Decidable (_ ∧ _))

def intersect (r s : Rect) : Rect := ⟨fun d => Max.max (r.min d) (s.min d), fun d => Min.min (r.max d) (s.max d)⟩

end Rect

inductive ScaleMode where
  | auto
  | fit
  | fill
  | fitWidth
  | fitHeight
  | fillWidth
  | fillHeight
  | original
deriving DecidableEq, Repr

/-- `scale`: points per desktop pixel. -/
def ScaleMode.scale (mode : ScaleMode) (source window : Vec2) (pixelsPerPoint : ℚ) : ℚ :=
  let native := 1 / max pixelsPerPoint (1 / 100)
  if source .x ≤ 0 ∨ source .y ≤ 0 ∨ window .x ≤ 0 ∨ window .y ≤ 0 then native
  else
    let x := window .x / source .x
    let y := window .y / source .y
    match mode with
    | auto => min (max x y) native
    | fit => min x y
    | fill => max x y
    | fitWidth => min x native
    | fitHeight => min y native
    | fillWidth => x
    | fillHeight => y
    | original => native

structure View where
  mode : ScaleMode
  pan : Vec2

structure Layout where
  scale : ℚ
  source : Rect
  rect : Rect
  window : Rect
  overflow : Vec2
  pan : Vec2
  pixelsPerPoint : ℚ

/-- `f32::round`: a half away from zero. -/
def round (x : ℚ) : Int := if 0 ≤ x then ⌊x + 1 / 2⌋ else ⌈x - 1 / 2⌉

/-- `layout`, and the view with its pan clamped. -/
def View.layout (v : View) (source window : Rect) (pixelsPerPoint : ℚ) : Layout × View :=
  let scale := v.mode.scale source.size window.size pixelsPerPoint
  let scaled : Vec2 := fun d => source.size d * scale
  let overflow : Vec2 := fun d => max (scaled d - window.size d) 0
  let pan : Vec2 := fun d => clamp (v.pan d) 0 (overflow d)
  let slack : Vec2 := fun d => max (window.size d - scaled d) 0 / 2
  let origin : Vec2 := window.min + slack - pan
  let onPixels (v : Vec2) : Vec2 := fun d => round (v d * pixelsPerPoint) / pixelsPerPoint
  let rect := Rect.fromMinSize (onPixels origin) (onPixels scaled)
  ({ scale, source, rect, window, overflow, pan, pixelsPerPoint }, { v with pan })

namespace Layout

variable (l : Layout)

/-- Where a point is, in device pixels from the drawn rectangle on. A point on a whole one may come back a hair under
it. -/
def along (d : Axis) (pos : ℚ) : ℚ := (pos - l.rect.min d) * l.pixelsPerPoint + 1 / 1000

def pixel (d : Axis) (pos : ℚ) : Int := ⌊l.along d pos⌋

/-- `desktop_at`. -/
def desktopAt (pos : Pos2) : Axis → Int32 := fun d =>
  let pixels : ℚ := max (round (l.rect.size d * l.pixelsPerPoint)) 1
  let pixel : ℚ := l.pixel d (pos d)
  let sourceLen := l.source.size d
  let last := max (sourceLen - 1) 0
  let at_ : ℚ :=
    if pixel ≤ 0 then 0
    else if pixels - 1 ≤ pixel then last
    else clamp (⌊(pixel + 1 / 2) * sourceLen / pixels⌋ : ℚ) 0 last
  Java.castInt (l.source.min d + at_)

/-- `f32::EPSILON`. -/
def epsilon : ℚ := 1 / 2 ^ 23

/-- `as i64`, of a whole number. -/
def castInt64 (n : Int) : Int := clamp n (-2 ^ 63) (2 ^ 63 - 1)

/-- `desktop_beyond`. -/
def desktopBeyond (pos : Pos2) (desktop : Axis → Nat) : Axis → Int32 :=
  if l.window.contains pos then l.desktopAt pos
  else fun d =>
    let pixel : ℚ := l.pixel d (pos d)
    let at_ := l.source.min d + (pixel + 1 / 2) * l.source.size d / max (l.rect.size d * l.pixelsPerPoint) epsilon
    Int32.ofInt (clamp (castInt64 ⌊at_⌋) 0 (max (desktop d - 1) 0))

end Layout

/-- `source_rect`: the monitor's place on the desktop, by its corner and its size, and else the whole of it. -/
def sourceRect (monitor : Option ((Axis → Int32) × (Axis → Int32))) (desktop : Axis → Nat) : Rect :=
  let whole := Rect.fromMinSize 0 fun d => desktop d
  match monitor with
  | some (corner, size) =>
    let r := (Rect.fromMinSize (fun d => (corner d).toInt) fun d => (size d).toInt).intersect whole
    if 1 ≤ r.size .x ∧ 1 ≤ r.size .y then r else whole
  | none => whole

/-! ## What is shown -/

/-- Whole pixels of a desktop. -/
structure Shown (desktop : Axis → Nat) where
  first : Axis → Int
  size : Axis → Int
  first_nonneg : ∀ d, 0 ≤ first d
  size_pos : ∀ d, 0 < size d
  fits : ∀ d, first d + size d ≤ desktop d
  /-- A pixel's coordinates are `i32`s. -/
  desktop_le : ∀ d, desktop d ≤ 2 ^ 31

def Shown.rect {desktop : Axis → Nat} (shown : Shown desktop) : Rect :=
  .fromMinSize (fun d => shown.first d) fun d => shown.size d

@[simp]
theorem Rect.size_fromMinSize (min : Pos2) (size : Vec2) : (Rect.fromMinSize min size).size = size := by
  funext d
  exact add_sub_cancel_left (min d) (size d)

/-- What a window shows is whole pixels of the desktop, whatever monitor it is of. -/
theorem sourceRect_shown (monitor : Option ((Axis → Int32) × (Axis → Int32))) {desktop : Axis → Nat}
    (h : ∀ d, 1 ≤ desktop d ∧ desktop d ≤ 2 ^ 31) :
    ∃ shown : Shown desktop, sourceRect monitor desktop = shown.rect := by
  have hwhole : ∃ shown : Shown desktop, Rect.fromMinSize 0 (fun d => desktop d) = shown.rect := by
    refine ⟨⟨0, fun d => desktop d, fun d => le_rfl, fun d => ?_, fun d => ?_, fun d => (h d).2⟩, ?_⟩
    · have := (h d).1
      omega
    · simp
    · simp only [Shown.rect, Pi.zero_apply, Int.cast_zero, Int.cast_natCast]
      rfl
  cases monitor with
  | none => exact hwhole
  | some monitor =>
    obtain ⟨corner, size⟩ := monitor
    unfold sourceRect
    dsimp only
    split
    · rename_i hsize
      let lo : Axis → Int := fun d => max (corner d).toInt 0
      let hi : Axis → Int := fun d => min ((corner d).toInt + (size d).toInt) (desktop d)
      have hr : (Rect.fromMinSize (fun d => ((corner d).toInt : ℚ)) fun d => ((size d).toInt : ℚ)).intersect
          (.fromMinSize 0 fun d => desktop d) = ⟨fun d => lo d, fun d => hi d⟩ := by
        simp [Rect.intersect, Rect.fromMinSize, lo, hi]
      rw [hr] at hsize ⊢
      have hpos : ∀ d, lo d + 1 ≤ hi d := fun d => by
        have hd : (1 : ℚ) ≤ hi d - lo d := by
          cases d with
          | x => exact hsize.1
          | y => exact hsize.2
        have hd : (lo d + 1 : ℚ) ≤ hi d := by linarith
        exact_mod_cast hd
      refine ⟨⟨lo, fun d => hi d - lo d, fun d => le_max_right _ _, fun d => ?_, fun d => ?_, fun d => (h d).2⟩, ?_⟩
      · have := hpos d
        omega
      · rw [add_sub_cancel]
        exact min_le_right _ _
      · simp only [Shown.rect, Rect.fromMinSize, Rect.mk.injEq, true_and]
        funext d
        simp
    · exact hwhole

/-! ## On device pixels -/

theorem round_intCast (n : Int) : round (n : ℚ) = n := by
  unfold round
  split
  · rw [Int.floor_eq_iff]
    constructor <;> norm_num
  · rw [Int.ceil_eq_iff]
    constructor <;> norm_num

theorem pos_of_round_pos {x : ℚ} (h : 0 < round x) : 0 < x := by
  unfold round at h
  split at h
  · rename_i hx
    rcases hx.lt_or_eq with hx | rfl
    · exact hx
    · norm_num at h
  · rename_i hx
    have hceil := Int.ceil_le.2 (show x - 1 / 2 ≤ ((0 : Int) : ℚ) by push_cast; linarith)
    omega

theorem ScaleMode.scale_pos (mode : ScaleMode) {source : Vec2} (h : ∀ d, 0 < source d) (window : Vec2)
    (pixelsPerPoint : ℚ) : 0 < mode.scale source window pixelsPerPoint := by
  have hnative : 0 < 1 / max pixelsPerPoint (1 / 100) := by
    apply one_div_pos.2
    exact lt_max_of_lt_right (by norm_num)
  unfold scale
  dsimp only
  split
  · exact hnative
  · rename_i hsizes
    simp only [not_or, not_le] at hsizes
    have hx := div_pos hsizes.2.2.1 (h .x)
    have hy := div_pos hsizes.2.2.2 (h .y)
    cases mode with
    | auto => exact lt_min (lt_max_of_lt_left hx) hnative
    | fit => exact lt_min hx hy
    | fill => exact lt_max_of_lt_left hx
    | fitWidth => exact lt_min hx hnative
    | fitHeight => exact lt_min hy hnative
    | fillWidth => exact hx
    | fillHeight => exact hy
    | original => exact hnative

variable {desktop : Axis → Nat} {shown : Shown desktop} {l : Layout}

/-- How many device pixels the picture is drawn on. -/
def Layout.pixels (l : Layout) (d : Axis) : Int := round (l.rect.size d * l.pixelsPerPoint)

/-- Whole pixels of a desktop, drawn on one whole device pixel or more each way. -/
structure Layout.Drawn (l : Layout) (shown : Shown desktop) : Prop where
  source : l.source = shown.rect
  positive : 0 < l.pixelsPerPoint
  whole : ∀ d, l.rect.size d * l.pixelsPerPoint = l.pixels d
  pixels_pos : ∀ d, 0 < l.pixels d

namespace Layout.Drawn

variable (h : l.Drawn shown) (d : Axis)
include h

theorem source_min : l.source.min d = shown.first d := by
  rw [h.source]
  rfl

theorem source_size : l.source.size d = shown.size d := by
  rw [h.source, Shown.rect, Rect.size_fromMinSize]

theorem pixels_ge : (1 : ℚ) ≤ l.pixels d := by exact_mod_cast h.pixels_pos d

end Layout.Drawn

theorem View.layout_rect_size (v : View) (source window : Rect) (pixelsPerPoint : ℚ) (d : Axis) :
    (v.layout source window pixelsPerPoint).1.rect.size d =
      round (source.size d * v.mode.scale source.size window.size pixelsPerPoint * pixelsPerPoint) / pixelsPerPoint :=
  congrFun (Rect.size_fromMinSize _ _) d

theorem View.layout_drawn (v : View) (window : Rect) (pixelsPerPoint : ℚ)
    (h : ∀ d, 1 ≤ (v.layout shown.rect window pixelsPerPoint).1.rect.size d * pixelsPerPoint) :
    (v.layout shown.rect window pixelsPerPoint).1.Drawn shown := by
  have hshown : ∀ d, (0 : ℚ) < shown.rect.size d := fun d => by
    rw [Shown.rect, Rect.size_fromMinSize]
    exact_mod_cast shown.size_pos d
  have hscale := v.mode.scale_pos hshown window.size pixelsPerPoint
  have hne : pixelsPerPoint ≠ 0 := by
    rintro rfl
    have := h .x
    rw [mul_zero] at this
    linarith
  simp only [View.layout_rect_size, div_mul_cancel₀ _ hne] at h
  have hround : ∀ d, (v.layout shown.rect window pixelsPerPoint).1.rect.size d * pixelsPerPoint =
      round (shown.rect.size d * v.mode.scale shown.rect.size window.size pixelsPerPoint * pixelsPerPoint) := by
    intro d
    rw [View.layout_rect_size, div_mul_cancel₀ _ hne]
  have hpixels : ∀ d, (v.layout shown.rect window pixelsPerPoint).1.pixels d =
      round (shown.rect.size d * v.mode.scale shown.rect.size window.size pixelsPerPoint * pixelsPerPoint) := fun d =>
    (congrArg round (hround d)).trans (round_intCast _)
  have hpos : ∀ d, 0 < (v.layout shown.rect window pixelsPerPoint).1.pixels d := fun d => by
    rw [hpixels]
    exact_mod_cast h d
  refine ⟨rfl, ?_, fun d => by rw [hpixels]; exact hround d, hpos⟩
  have hx := hpos .x
  rw [hpixels] at hx
  exact pos_of_mul_pos_right (pos_of_round_pos hx) (mul_pos (hshown .x) hscale).le

/-! ## The two mappings, in whole numbers -/

theorem toInt_castInt_intCast {n : Int} (hlo : -2 ^ 31 ≤ n) (hhi : n < 2 ^ 31) : (Java.castInt (n : ℚ)).toInt = n := by
  rw [Java.toInt_castInt, Java.trunc_intCast, clamp_of_mem hlo (by omega)]

namespace Layout

/-- The limits of the cast are past those it is clamped to. -/
theorem clamp_castInt64 (n : Int) {m : Int} (h0 : 0 ≤ m) (hm : m < 2 ^ 63 - 1) :
    clamp (castInt64 n) 0 m = clamp n 0 m := by
  unfold castInt64
  rcases clamp_cases n (-2 ^ 63) (2 ^ 63 - 1) with ⟨hlt, heq⟩ | ⟨hgt, heq⟩ | heq
  · rw [heq, clamp_of_lt (by decide), clamp_of_lt (by omega)]
  · rw [heq, clamp_of_gt (by decide) hm, clamp_of_gt (by omega) (by omega)]
  · rw [heq]

variable (h : l.Drawn shown)
include h

theorem desktopAt_toInt (pos : Pos2) (d : Axis) :
    (l.desktopAt pos d).toInt = shown.first d + pinned (shown.size d) (l.pixels d) (l.pixel d (pos d)) := by
  have hS := shown.size_pos d
  have hP := h.pixels_pos d
  have hmem := pinned_mem hS hP (l.pixel d (pos d))
  have hfirst := shown.first_nonneg d
  have hfits := shown.fits d
  have hdesktop := shown.desktop_le d
  have hlast : max ((shown.size d : ℚ) - 1) 0 = (shown.size d - 1 : Int) := by
    push_cast
    apply max_eq_left
    have : (1 : ℚ) ≤ shown.size d := by exact_mod_cast hS
    linarith
  have hpixels : max (round (l.rect.size d * l.pixelsPerPoint) : ℚ) 1 = l.pixels d := max_eq_left (h.pixels_ge d)
  have hat : (shown.first d + pinned (shown.size d) (l.pixels d) (l.pixel d (pos d)) : Int) < 2 ^ 31 := by omega
  rw [← toInt_castInt_intCast (by omega) hat]
  unfold desktopAt
  dsimp only
  rw [h.source_size, hlast, hpixels, h.source_min, Int.cast_add]
  congr 2
  -- The three ways that a pixel is pinned.
  rcases le_or_gt (l.pixel d (pos d)) 0 with hq | hq
  · rw [pinned_of_le hq, if_pos (by exact_mod_cast hq), Int.cast_zero]
  · rw [if_neg (by exact_mod_cast not_le.2 hq)]
    rcases le_or_gt (l.pixels d - 1) (l.pixel d (pos d)) with hqP | hqP
    · rw [pinned_of_ge hq hqP, if_pos (by exact_mod_cast hqP)]
    · have hcentre := pinned_of_mem (S := shown.size d) hq hqP
      rw [if_neg (by exact_mod_cast not_le.2 hqP), floor_centre hP, ← hcentre, clamp_of_mem]
      · exact_mod_cast hmem.1
      · exact_mod_cast Int.le_sub_one_of_lt hmem.2

theorem desktopBeyond_toInt {pos : Pos2} (hpos : ¬ l.window.contains pos) (d : Axis) :
    (l.desktopBeyond pos desktop d).toInt =
      carried (shown.first d) (desktop d) (shown.size d) (l.pixels d) (l.pixel d (pos d)) := by
  have hP := h.pixels_pos d
  have hS := shown.size_pos d
  have hfirst := shown.first_nonneg d
  have hfits := shown.fits d
  have hdesktop := shown.desktop_le d
  have hpixels : max (l.rect.size d * l.pixelsPerPoint) epsilon = l.pixels d := by
    rw [h.whole]
    apply max_eq_left
    exact le_trans (by norm_num [epsilon]) (h.pixels_ge d)
  have hfloor : ⌊(shown.first d : ℚ) + (l.pixel d (pos d) + 1 / 2) * shown.size d / l.pixels d⌋ =
      shown.first d + centre (shown.size d) (l.pixels d) (l.pixel d (pos d)) := by
    rw [Int.floor_intCast_add, floor_centre hP]
  have hmem := carried_mem (shown.first d) (shown.size d) (l.pixels d) (l.pixel d (pos d))
    (show (0 : Int) < desktop d by omega)
  have hwhole : max ((desktop d : Int) - 1) 0 = desktop d - 1 := max_eq_left (by omega)
  unfold desktopBeyond
  rw [if_neg hpos]
  dsimp only
  rw [h.source_size, hpixels, h.source_min, hfloor, hwhole, clamp_castInt64 _ (by omega) (by omega)]
  have hlimit : ((desktop d : Nat) : Int) ≤ 2 ^ 31 := by exact_mod_cast hdesktop
  exact Int32.toInt_ofInt_of_le (Int.le_trans (by decide) hmem.1) (Int.lt_of_lt_of_le hmem.2 hlimit)

end Layout

end Vento.Linux.Gui
