import Mathlib.Data.List.Sort
import Vento.Lib.Java
/-!
# The window onto the desktop

`control/Viewport.java`: where the desktop is drawn, by a scale and an origin, with the
view less its insets as the content rectangle. A `float` is a rational, so what is proved
is about the rules and not about their rounding.

`centreOn` puts a point of the desktop at the content's centre and then clamps the
origin. `centreOn_visible` is that the point is never clamped out of the content.
-/

namespace Vento.Control

open Vento.Lib Java

/-- Pixels at each side. -/
structure Sides where
  left : Int32
  top : Int32
  right : Int32
  bottom : Int32
  nonneg : 0 ≤ left ∧ 0 ≤ top ∧ 0 ≤ right ∧ 0 ≤ bottom
deriving DecidableEq

theorem zero_le_maxInt (n : Int32) : 0 ≤ maxInt n 0 := by
  rw [Int32.le_iff_toInt_le, toInt_maxInt]
  exact le_max_right _ _

/-- `Math.max` of each and 0. -/
def Sides.of (left top right bottom : Int32) : Sides :=
  ⟨maxInt left 0, maxInt top 0, maxInt right 0, maxInt bottom 0,
    zero_le_maxInt _, zero_le_maxInt _, zero_le_maxInt _, zero_le_maxInt _⟩

def Sides.zero : Sides := ⟨0, 0, 0, 0, by decide⟩

/-- What the scales are worked out from. -/
structure Sizes where
  density : ℚ
  fbW : Int32
  fbH : Int32
  viewW : Int32
  viewH : Int32
  inset : Sides
  /-- Widths and heights, in pairs. -/
  fitSizes : List Int32
  density_ge : 1 ≤ density
  fbW_pos : 1 ≤ fbW
  fbH_pos : 1 ≤ fbH
deriving DecidableEq

structure Viewport extends Sizes where
  margin : Sides
  scale : ℚ
  originX : ℚ
  originY : ℚ
  focusX : ℚ
  focusY : ℚ
  ladder : List ℚ
  ladderIndex : Nat
deriving DecidableEq

namespace Viewport

def new (density : ℚ) : Viewport where
  density := max density 1
  fbW := 1
  fbH := 1
  viewW := 0
  viewH := 0
  inset := .zero
  fitSizes := []
  density_ge := le_max_right _ _
  fbW_pos := by decide
  fbH_pos := by decide
  margin := .zero
  scale := 1
  originX := 0
  originY := 0
  focusX := 0
  focusY := 0
  ladder := []
  ladderIndex := 0

end Viewport

namespace Sizes

/-! ## The content -/

def contentWidth (v : Sizes) : Int32 := maxInt (v.viewW - v.inset.left - v.inset.right) 0

def contentHeight (v : Sizes) : Int32 := maxInt (v.viewH - v.inset.top - v.inset.bottom) 0

def centreScreenX (v : Sizes) : ℚ := float v.inset.left + float v.contentWidth / 2

def centreScreenY (v : Sizes) : ℚ := float v.inset.top + float v.contentHeight / 2

/-! ## The limits -/

def minScale (v : Sizes) : ℚ :=
  if v.contentWidth = 0 ∨ v.contentHeight = 0 then 1
  else min (float v.contentWidth / float v.fbW) (float v.contentHeight / float v.fbH)

def fillScale (v : Sizes) : ℚ :=
  if v.contentWidth = 0 ∨ v.contentHeight = 0 then 1
  else max (float v.contentWidth / float v.fbW) (float v.contentHeight / float v.fbH)

def maxScale (v : Sizes) : ℚ := 2 * ⌊v.density⌋

/-- A width of the desktop catches those within 4% of it. -/
def near (w candidateW : ℚ) : Bool := decide (0 < candidateW ∧ |w - candidateW| ≤ 4 / 100 * candidateW)

def snapTo (v : Sizes) (q w candidateW : ℚ) : ℚ := if near w candidateW then candidateW / float v.fbW else q

/-- The widths that a scale snaps to, in turn: the steps up to the density, fit width and fit height. -/
def candidates (v : Sizes) : List ℚ :=
  (List.range (castInt ⌊v.density⌋).toInt.toNat).map (fun k => float (v.fbW * Int32.ofNat (k + 1))) ++
    if 0 < v.contentWidth ∧ 0 < v.contentHeight then
      [float v.contentWidth, float v.fbW * (float v.contentHeight / float v.fbH)]
    else []

/-- To 1/128, towards zero. -/
def quantise (s : ℚ) : ℚ := float (castInt (s * 128)) / 128

def snapScale (v : Sizes) (s : ℚ) : ℚ :=
  let q := quantise s
  let w := float v.fbW * q
  clamp (v.candidates.foldl (fun q c => v.snapTo q w c) q) v.minScale v.maxScale

/-! ## The ladder -/

/-- Each step of 0.66 down from `f`, while it is above the fit. -/
def stepsDown (fit : ℚ) : Nat → ℚ → List ℚ
  | 0, _ => []
  | n + 1, f => if fit < f then f :: stepsDown fit n (f * (66 / 100)) else []

/-- The scale at which each region fits the content. -/
def regionScales (v : Sizes) : List Int32 → List ℚ
  | w :: h :: sizes =>
    if 0 < w ∧ 0 < h ∧ w ≤ v.fbW ∧ h ≤ v.fbH then
      min (float v.contentWidth / float w) (float v.contentHeight / float h) :: v.regionScales sizes
    else v.regionScales sizes
  | _ => []

/-- The scales that are snapped for the ladder. -/
def rawScales (v : Sizes) : List ℚ :=
  stepsDown v.minScale 32 1 ++ [3 / 2, 2, v.minScale, v.fillScale] ++ v.regionScales v.fitSizes

def buildLadder (v : Sizes) : List ℚ :=
  if v.contentWidth = 0 ∨ v.contentHeight = 0 then []
  else thin (1 / 10000) ((v.rawScales.map v.snapScale).insertionSort (· ≤ ·))

end Sizes

namespace Viewport

/-! ## Coordinates -/

def toScreenX (v : Viewport) (dx : ℚ) : ℚ := dx * v.scale + v.originX

def toScreenY (v : Viewport) (dy : ℚ) : ℚ := dy * v.scale + v.originY

def toDesktopX (v : Viewport) (sx : ℚ) : ℚ := (sx - v.originX) / v.scale

def toDesktopY (v : Viewport) (sy : ℚ) : ℚ := (sy - v.originY) / v.scale

def setFocus (v : Viewport) (dx dy : ℚ) : Viewport := { v with focusX := dx, focusY := dy }

/-! ## The index -/

def selectNearestLadderEntry (v : Viewport) (s : ℚ) : Viewport := { v with ladderIndex := nearest s v.ladder }

def rebuildLadder (v : Viewport) : Viewport :=
  ({ v with ladder := v.buildLadder } : Viewport).selectNearestLadderEntry v.scale

/-! ## Centring -/

/-- One axis of the clamp. -/
def clampAxis (o : ℚ) (inset content : Int32) (desktop centred : ℚ) (marginLo marginHi : Int32) : ℚ :=
  let mLo := min (float marginLo) (float content / 2)
  let mHi := min (float marginHi) (float content / 2)
  if desktop < float content then
    let rest := clamp centred (float inset) (float (inset + content) - desktop)
    let blankLo := rest - float inset
    let blankHi := float (inset + content) - desktop - rest
    clamp o (rest - max (mHi - blankHi) 0) (rest + max (mLo - blankLo) 0)
  else clamp o (float (inset + content) - desktop - mHi) (float inset + mLo)

/-- The origin that puts `(dx, dy)` in the middle, clamped. -/
def origin (v : Viewport) (dx dy s : ℚ) : ℚ × ℚ :=
  let ox := v.centreScreenX - dx * s
  let oy := v.centreScreenY - dy * s
  let dw := float v.fbW * s
  let dh := float v.fbH * s
  (clampAxis ox v.inset.left v.contentWidth dw ((float v.viewW - dw) / 2) v.margin.left v.margin.right,
    clampAxis oy v.inset.top v.contentHeight dh ((float v.viewH - dh) / 2) v.margin.top v.margin.bottom)

def centreOn (v : Viewport) (dx dy s : ℚ) : Viewport :=
  if v.contentWidth = 0 ∨ v.contentHeight = 0 then { v with scale := s }
  else
    let placed := { v with scale := s, originX := (v.origin dx dy s).1, originY := (v.origin dx dy s).2 }
    let focused := { placed with
      focusX := placed.toDesktopX placed.centreScreenX
      focusY := placed.toDesktopY placed.centreScreenY }
    if v.scale ≠ s then focused.selectNearestLadderEntry s else focused

def setScale (v : Viewport) (s : ℚ) : Viewport := v.centreOn v.focusX v.focusY (v.snapScale s)

def panBy (v : Viewport) (screenDx screenDy : ℚ) : Viewport :=
  v.centreOn (v.focusX - screenDx / v.scale) (v.focusY - screenDy / v.scale) v.scale

theorem one_le_maxInt (n : Int32) : 1 ≤ maxInt n 1 := by
  rw [Int32.le_iff_toInt_le, toInt_maxInt]
  exact le_max_right _ _

def setDesktopSize (v : Viewport) (w h : Int32) : Viewport :=
  { v with fbW := maxInt w 1, fbH := maxInt h 1, fbW_pos := one_le_maxInt w, fbH_pos := one_le_maxInt h }.rebuildLadder

def setViewSize (v : Viewport) (w h : Int32) : Viewport := { v with viewW := w, viewH := h }.rebuildLadder

def setInsets (v : Viewport) (left top right bottom : Int32) : Viewport :=
  { v with inset := .of left top right bottom }.rebuildLadder

def setPanMargins (v : Viewport) (left top right bottom : Int32) : Viewport :=
  if Sides.of left top right bottom = v.margin then v
  else { v with margin := .of left top right bottom }.centreOn v.focusX v.focusY v.scale

def setFitSizes (v : Viewport) (sizes : List Int32) : Viewport := { v with fitSizes := sizes }.rebuildLadder

/-! ## The zoom buttons -/

def canZoomIn (v : Viewport) : Prop := v.ladderIndex + 1 < v.ladder.length

def canZoomOut (v : Viewport) : Prop := 0 < v.ladderIndex

instance (v : Viewport) : Decidable v.canZoomIn := inferInstanceAs (Decidable (_ < _))

instance (v : Viewport) : Decidable v.canZoomOut := inferInstanceAs (Decidable (_ < _))

def zoomIn (v : Viewport) : Viewport := if v.canZoomIn then v.setScale (v.ladder.getD (v.ladderIndex + 1) v.scale) else v

def zoomOut (v : Viewport) : Viewport := if v.canZoomOut then v.setScale (v.ladder.getD (v.ladderIndex - 1) v.scale) else v

def zoomToFit (v : Viewport) : Viewport := v.setScale v.minScale

def zoomToFill (v : Viewport) : Viewport := v.setScale (min v.fillScale ⌊v.density⌋)

/-! ## The content's sizes -/

theorem zero_le_of_le {n : Int32} (h : 0 ≤ n) : 0 ≤ n.toInt := Int32.le_iff_toInt_le.1 h

/-- The space between two insets, which is what the code computes wherever there is any. -/
theorem toInt_content {view lo hi : Int32} (hlo : 0 ≤ lo) (hhi : 0 ≤ hi) (h : lo.toInt + hi.toInt < view.toInt) :
    (maxInt (view - lo - hi) 0).toInt = view.toInt - lo.toInt - hi.toInt ∧
      (lo + maxInt (view - lo - hi) 0).toInt = view.toInt - hi.toInt := by
  have hlo := zero_le_of_le hlo
  have hhi := zero_le_of_le hhi
  have hview := Int32.toInt_lt view
  have hsub : (view - lo).toInt = view.toInt - lo.toInt := toInt_sub (by omega) (by omega)
  have hcontent : (maxInt (view - lo - hi) 0).toInt = view.toInt - lo.toInt - hi.toInt := by
    rw [toInt_maxInt, toInt_sub (by omega) (by omega), hsub]
    exact max_eq_left (by rw [Int32.toInt_zero]; omega)
  refine ⟨hcontent, ?_⟩
  rw [toInt_add (by omega) (by omega), hcontent]
  omega

/-- The content is not empty. -/
def HasContent (v : Viewport) : Prop :=
  v.inset.left.toInt + v.inset.right.toInt < v.viewW.toInt ∧ v.inset.top.toInt + v.inset.bottom.toInt < v.viewH.toInt

theorem HasContent.ne_zero {v : Viewport} (h : v.HasContent) : ¬(v.contentWidth = 0 ∨ v.contentHeight = 0) := by
  have hw := (toInt_content v.inset.nonneg.1 v.inset.nonneg.2.2.1 h.1).1
  have hh := (toInt_content v.inset.nonneg.2.1 v.inset.nonneg.2.2.2 h.2).1
  rintro (h0 | h0)
  · rw [← Sizes.contentWidth, h0, Int32.toInt_zero] at hw
    have := h.1
    omega
  · rw [← Sizes.contentHeight, h0, Int32.toInt_zero] at hh
    have := h.2
    omega

/-! ## One axis -/

/-- A point that the centring asks for the middle of `lo` to `hi` is between them, whichever way the origin is clamped. -/
theorem clampAxis_visible {inset content marginLo marginHi : Int32} {p desktop centred lo hi : ℚ} (hp : 0 ≤ p)
    (hpd : p ≤ desktop) (hlo : float inset = lo) (hcontent : float content = hi - lo) (hhi : float (inset + content) = hi)
    (hmlo : 0 ≤ float marginLo) (hmhi : 0 ≤ float marginHi) (hpos : lo < hi) :
    lo ≤ p + clampAxis (lo + (hi - lo) / 2 - p) inset content desktop centred marginLo marginHi ∧
      p + clampAxis (lo + (hi - lo) / 2 - p) inset content desktop centred marginLo marginHi ≤ hi := by
  have hhalf : 0 ≤ (hi - lo) / 2 := by linarith
  have hm := fun m (hm : 0 ≤ float m) => le_min hm hhalf
  have hmL := hm marginLo hmlo
  have hmH := hm marginHi hmhi
  unfold clampAxis
  rw [hcontent, hlo, hhi]
  simp only
  split
  · have hrest := clamp_mem centred (show lo ≤ hi - desktop by linarith)
    have hlo' := le_max_right (min (float marginHi) ((hi - lo) / 2) - (hi - desktop - clamp centred lo (hi - desktop))) 0
    have hhi' := le_max_right (min (float marginLo) ((hi - lo) / 2) - (clamp centred lo (hi - desktop) - lo)) 0
    rcases clamp_cases (lo + (hi - lo) / 2 - p) _ _ with ⟨hlt, h⟩ | ⟨hgt, h⟩ | h <;> rw [h] <;> constructor <;> linarith
  · rcases clamp_cases (lo + (hi - lo) / 2 - p) _ _ with ⟨hlt, h⟩ | ⟨hgt, h⟩ | h <;> rw [h] <;> constructor <;> linarith

/-- A drawn axis from `a` to `b` and the content's from `lo` to `hi`: the larger has the smaller inside it. -/
def Nested (a b lo hi : ℚ) : Prop := (hi - lo ≤ b - a → a ≤ lo ∧ hi ≤ b) ∧ (b - a ≤ hi - lo → lo ≤ a ∧ b ≤ hi)

/-- Without margins a larger desktop covers the content, and a smaller one lies inside it. -/
theorem clampAxis_nested {inset content : Int32} {o w s centred lo hi : ℚ} (hlo : float inset = lo)
    (hcontent : float content = hi - lo) (hhi : float (inset + content) = hi) (hpos : lo < hi) :
    Nested (0 * s + clampAxis o inset content (w * s) centred 0 0) (w * s + clampAxis o inset content (w * s) centred 0 0)
      lo hi := by
  have hm : min (float 0) ((hi - lo) / 2) = 0 := by
    rw [show float 0 = 0 from Int.cast_zero]
    exact min_eq_left (by linarith)
  generalize w * s = desktop
  unfold clampAxis
  rw [hcontent, hlo, hhi, hm]
  simp only
  split
  · rename_i hlt
    have hrest := clamp_mem centred (show lo ≤ hi - desktop by linarith)
    have h1 : max (0 - (hi - desktop - clamp centred lo (hi - desktop))) 0 = 0 := max_eq_right (by linarith)
    have h2 : max (0 - (clamp centred lo (hi - desktop) - lo)) 0 = 0 := max_eq_right (by linarith)
    rw [h1, h2]
    have hmem := clamp_mem o (show clamp centred lo (hi - desktop) - 0 ≤ clamp centred lo (hi - desktop) + 0 by linarith)
    refine ⟨fun h => ?_, fun _ => ⟨by linarith, by linarith⟩⟩
    exact absurd hlt (not_lt.2 (by linarith))
  · rename_i hle
    have hmem := clamp_mem o (show hi - desktop - 0 ≤ lo + 0 by linarith)
    refine ⟨fun _ => ⟨by linarith, by linarith⟩, fun h => ?_⟩
    have heq : desktop = hi - lo := le_antisymm (by linarith) (not_lt.1 hle)
    exact ⟨by linarith, by linarith⟩

/-! ## Centring -/

def contentLeft (v : Viewport) : ℚ := float v.inset.left

def contentTop (v : Viewport) : ℚ := float v.inset.top

def contentRight (v : Viewport) : ℚ := float v.viewW - float v.inset.right

def contentBottom (v : Viewport) : ℚ := float v.viewH - float v.inset.bottom

theorem float_nonneg {n : Int32} (h : 0 ≤ n) : 0 ≤ float n := Int.cast_nonneg (zero_le_of_le h)

theorem HasContent.width {v : Viewport} (h : v.HasContent) :
    float v.contentWidth = v.contentRight - v.contentLeft ∧ float (v.inset.left + v.contentWidth) = v.contentRight ∧
      v.contentLeft < v.contentRight := by
  obtain ⟨hw, hr⟩ := toInt_content v.inset.nonneg.1 v.inset.nonneg.2.2.1 h.1
  have hlt : (v.inset.left.toInt : ℚ) + v.inset.right.toInt < v.viewW.toInt := by exact_mod_cast h.1
  unfold Sizes.contentWidth contentLeft contentRight float
  rw [hw, hr]
  push_cast
  exact ⟨by ring, rfl, by linarith⟩

theorem HasContent.height {v : Viewport} (h : v.HasContent) :
    float v.contentHeight = v.contentBottom - v.contentTop ∧ float (v.inset.top + v.contentHeight) = v.contentBottom ∧
      v.contentTop < v.contentBottom := by
  obtain ⟨hh, hb⟩ := toInt_content v.inset.nonneg.2.1 v.inset.nonneg.2.2.2 h.2
  have hlt : (v.inset.top.toInt : ℚ) + v.inset.bottom.toInt < v.viewH.toInt := by exact_mod_cast h.2
  unfold Sizes.contentHeight contentTop contentBottom float
  rw [hh, hb]
  push_cast
  exact ⟨by ring, rfl, by linarith⟩

theorem centreOn_placed {v : Viewport} (h : v.HasContent) (dx dy s : ℚ) :
    (v.centreOn dx dy s).scale = s ∧ (v.centreOn dx dy s).originX = (v.origin dx dy s).1 ∧
      (v.centreOn dx dy s).originY = (v.origin dx dy s).2 := by
  unfold centreOn
  rw [if_neg h.ne_zero]
  simp only
  split <;> exact ⟨rfl, rfl, rfl⟩

/-- A point of the desktop that the view is centred on is inside the content, and without margins on an axis the
desktop covers the content or lies inside it there. -/
theorem centreOn_visible (v : Viewport) (hv : v.HasContent) (x y s : ℚ) (hs : 0 ≤ s) (hx : 0 ≤ x ∧ x ≤ float v.fbW)
    (hy : 0 ≤ y ∧ y ≤ float v.fbH) :
    (v.contentLeft ≤ (v.centreOn x y s).toScreenX x ∧ (v.centreOn x y s).toScreenX x ≤ v.contentRight) ∧
      (v.contentTop ≤ (v.centreOn x y s).toScreenY y ∧ (v.centreOn x y s).toScreenY y ≤ v.contentBottom) ∧
      (v.margin.left = 0 ∧ v.margin.right = 0 →
        Nested ((v.centreOn x y s).toScreenX 0) ((v.centreOn x y s).toScreenX (float v.fbW)) v.contentLeft v.contentRight) ∧
      (v.margin.top = 0 ∧ v.margin.bottom = 0 →
        Nested ((v.centreOn x y s).toScreenY 0) ((v.centreOn x y s).toScreenY (float v.fbH)) v.contentTop
          v.contentBottom) := by
  obtain ⟨hscale, hox, hoy⟩ := centreOn_placed hv x y s
  obtain ⟨hcw, hright, hwpos⟩ := hv.width
  obtain ⟨hch, hbottom, hhpos⟩ := hv.height
  have hm := v.margin.nonneg
  have hcx : v.centreScreenX = v.contentLeft + (v.contentRight - v.contentLeft) / 2 := by
    rw [Sizes.centreScreenX, hcw]
    rfl
  have hcy : v.centreScreenY = v.contentTop + (v.contentBottom - v.contentTop) / 2 := by
    rw [Sizes.centreScreenY, hch]
    rfl
  unfold toScreenX toScreenY
  rw [hscale, hox, hoy]
  unfold origin
  simp only [hcx, hcy]
  refine ⟨?_, ?_, ?_, ?_⟩
  · exact clampAxis_visible (mul_nonneg hx.1 hs) (mul_le_mul_of_nonneg_right hx.2 hs) rfl hcw hright
      (float_nonneg hm.1) (float_nonneg hm.2.2.1) hwpos
  · exact clampAxis_visible (mul_nonneg hy.1 hs) (mul_le_mul_of_nonneg_right hy.2 hs) rfl hch hbottom
      (float_nonneg hm.2.1) (float_nonneg hm.2.2.2) hhpos
  · rintro ⟨hl, hr⟩
    rw [hl, hr]
    exact clampAxis_nested rfl hcw hright hwpos
  · rintro ⟨ht, hb⟩
    rw [ht, hb]
    exact clampAxis_nested rfl hch hbottom hhpos

/-- A phone's view, with a keyboard over its lower part. -/
def withKeyboard : Viewport := (((new 3).setDesktopSize 1600 900).setViewSize 1080 2000).setInsets 0 60 0 800

theorem centreOn_visible_corner :
    withKeyboard.contentTop ≤ (withKeyboard.centreOn 1600 900 (3 / 2)).toScreenY 900 ∧
      (withKeyboard.centreOn 1600 900 (3 / 2)).toScreenY 900 ≤ withKeyboard.contentBottom := by
  have hw : float withKeyboard.fbW = 1600 := by
    rw [float, show withKeyboard.fbW.toInt = 1600 by decide]
    rfl
  have hh : float withKeyboard.fbH = 900 := by
    rw [float, show withKeyboard.fbH.toInt = 900 by decide]
    rfl
  exact (centreOn_visible withKeyboard ⟨by decide, by decide⟩ 1600 900 (3 / 2) (by norm_num)
    ⟨by norm_num, hw.ge⟩ ⟨by norm_num, hh.ge⟩).2.1

end Viewport

end Vento.Control
