import Vento.Ironrdp.Layout
/-!
# Layouts of an RDP client, in C

`buildLayout` of `freerdp/cpp/freerdp_session.c`, which puts screens where the other RDP client puts them
(`buildLayout_eq`). `layouts_kept` says for which both do so rightly.
-/

namespace Vento.Freerdp

open Vento.Lib Vento.Ironrdp

def maxMonitors : Nat := 16

/-- Four of the ints of a layout. -/
structure Rect where
  x : Int32
  y : Int32
  w : Int32
  h : Int32
deriving DecidableEq, Repr

/-- A monitor of the display-control channel. -/
structure MonitorLayout where
  flags : UInt32
  left : Int32
  top : Int32
  width : UInt32
  height : UInt32
  orientation : UInt32
  desktopScaleFactor : UInt32
  deviceScaleFactor : UInt32
deriving DecidableEq, Repr

def primary : UInt32 := 1

def orientationLandscape : UInt32 := 0

def clamp (v : Int32) : Int32 := if v < 200 then 200 else if 8192 < v then 8192 else v

/-- The first of the least, where there is one. -/
def least (l : List Int32) : Int32 := l.tail.foldl (fun m v => if v < m then v else m) (l.headD 0)

/-- The layout, and the desktop that it produces. -/
def buildLayout (rects : List Rect) (scale : Int32) : List MonitorLayout × List Rect :=
  let rects := rects.take maxMonitors
  let sizes := rects.map fun r => (clamp r.w &&& ~~~1, clamp r.h)
  let moved := rects.map fun r =>
    (rects.zip sizes).foldl (fun n o =>
      (if o.1.x + o.1.w ≤ r.x then n.1 - (o.1.w - o.2.1) else n.1,
        if o.1.y + o.1.h ≤ r.y then n.2 - (o.1.h - o.2.2) else n.2)) (r.x, r.y)
  let left := least (moved.map Prod.fst)
  let top := least (moved.map Prod.snd)
  let origin := moved.headD (0, 0)
  ((moved.zip sizes).zipIdx.map fun (p, i) =>
      ⟨if i = 0 then primary else 0, p.1.1 - origin.1, p.1.2 - origin.2, p.2.1.toUInt32, p.2.2.toUInt32, orientationLandscape,
        scale.toUInt32, scale.toUInt32⟩,
    (moved.zip sizes).map fun p => ⟨p.1.1 - left, p.1.2 - top, p.2.1, p.2.2⟩)

def MonitorLayout.screen (m : MonitorLayout) : Screen := ⟨m.left, m.top, m.width, m.height⟩

/-- A screen as the four ints that it is given in. -/
def rectOf (s : Screen) : Rect := ⟨s.x, s.y, s.width.toInt32, s.height.toInt32⟩

/-! ## The sizes -/

theorem even_toNat (v : UInt32) : (v &&& ~~~1).toNat = 2 * (v.toNat / 2) := by
  have hbits : v.toBitVec &&& ~~~1#32 = (v.toBitVec >>> 1) <<< 1 := by
    ext i hi
    simp only [BitVec.getElem_and, BitVec.getElem_not, BitVec.getElem_shiftLeft, BitVec.getElem_one]
    by_cases h0 : i = 0
    · simp [h0]
    · have hone : 1 + (i - 1) = i := by omega
      simp [h0, hone, BitVec.getElem_eq_testBit_toNat, show ¬i < 1 by omega]
  have hlt := v.toNat_lt
  have hnat := congrArg BitVec.toNat hbits
  rw [BitVec.toNat_shiftLeft, BitVec.toNat_ushiftRight, Nat.shiftLeft_eq, Nat.shiftRight_eq_div_pow] at hnat
  show (v.toBitVec &&& ~~~1#32).toNat = _
  rw [hnat]
  show v.toNat / 2 ^ 1 * 2 ^ 1 % 2 ^ 32 = _
  omega

/-- An int that fits its unsigned type is clamped as that type's value is. -/
theorem clamp_toInt32 {u : UInt32} (hu : u.toNat < 2 ^ 31) :
    clamp u.toInt32 = (if u.toNat < 200 then 200 else if 8192 < u.toNat then 8192 else u : UInt32).toInt32 := by
  have hcast := (toInt_toInt32 u).2 hu
  have hlow : u.toInt32 < 200 ↔ u.toNat < 200 := by
    rw [Int32.lt_iff_toInt_lt, hcast]
    exact Int.ofNat_lt
  have hhigh : 8192 < u.toInt32 ↔ 8192 < u.toNat := by
    rw [Int32.lt_iff_toInt_lt, hcast]
    exact Int.ofNat_lt
  simp only [clamp, hlow, hhigh]
  split
  · rfl
  · split
    · rfl
    · rfl

theorem clamped_toNat (u : UInt32) :
    (if u.toNat < 200 then 200 else if 8192 < u.toNat then 8192 else u : UInt32).toNat = min (max u.toNat 200) 8192 := by
  split
  · next h =>
    rw [Nat.max_eq_right (Nat.le_of_lt h)]
    rfl
  · next h =>
    rw [Nat.max_eq_left (Nat.not_lt.1 h)]
    split
    · next h => exact (Nat.min_eq_right (Nat.le_of_lt h)).symm
    · next h => exact (Nat.min_eq_left (Nat.not_lt.1 h)).symm

section Sizes

variable {adjust : UInt32 → UInt32 → UInt32 × UInt32} (hadjust : Adjusts adjust) {w h : UInt32}

include hadjust

theorem clamp_width (hw : w.toNat < 2 ^ 31) : clamp w.toInt32 &&& ~~~1 = (adjust w h).1.toInt32 := by
  have hfst : (if w.toNat < 200 then 200 else if 8192 < w.toNat then 8192 else w : UInt32) &&& ~~~1 = (adjust w h).1 := by
    apply UInt32.toNat_inj.1
    rw [even_toNat, clamped_toNat, (hadjust w h).1]
  rw [clamp_toInt32 hw, ← hfst]
  rfl

theorem clamp_height (hh : h.toNat < 2 ^ 31) : clamp h.toInt32 = (adjust w h).2.toInt32 := by
  have hsnd : (if h.toNat < 200 then 200 else if 8192 < h.toNat then 8192 else h : UInt32) = (adjust w h).2 := by
    apply UInt32.toNat_inj.1
    rw [clamped_toNat, (hadjust w h).2]
  rw [clamp_toInt32 hh, hsnd]

/-- The two clients put screens that ints can say in the same places. -/
theorem buildLayout_eq {screens : List Screen} (scale : Int32) (hlen : screens.length ≤ maxMonitors)
    (hsize : ∀ s ∈ screens, s.width.toNat < 2 ^ 31 ∧ s.height.toNat < 2 ^ 31) :
    (buildLayout (screens.map rectOf) scale).1.map MonitorLayout.screen = arranged adjust screens := by
  have htake : (screens.map rectOf).take maxMonitors = screens.map rectOf := List.take_of_length_le (by rw [List.length_map]; exact hlen)
  have hsizes : (screens.map rectOf).map (fun r => (clamp r.w &&& ~~~1, clamp r.h)) =
      (screens.map fun s => adjust s.width s.height).map fun p => (p.1.toInt32, p.2.toInt32) := by
    rw [List.map_map, List.map_map]
    apply List.map_congr_left
    intro s hs
    exact Prod.ext (clamp_width hadjust (hsize s hs).1) (clamp_height hadjust (hsize s hs).2)
  unfold buildLayout arranged
  dsimp only
  rw [htake, hsizes]
  generalize screens.map (fun s => adjust s.width s.height) = sizes
  have hmoved : (screens.map rectOf).map (fun r =>
      ((screens.map rectOf).zip (sizes.map fun p => (p.1.toInt32, p.2.toInt32))).foldl (fun n o =>
        (if o.1.x + o.1.w ≤ r.x then n.1 - (o.1.w - o.2.1) else n.1,
          if o.1.y + o.1.h ≤ r.y then n.2 - (o.1.h - o.2.2) else n.2)) (r.x, r.y)) =
      screens.map fun s => (screens.zip sizes).foldl (fun n o =>
        (if o.1.x + o.1.width.toInt32 ≤ s.x then n.1 - (o.1.width.toInt32 - o.2.1.toInt32) else n.1,
          if o.1.y + o.1.height.toInt32 ≤ s.y then n.2 - (o.1.height.toInt32 - o.2.2.toInt32) else n.2)) (s.x, s.y) := by
    rw [List.map_map, List.zip_map]
    apply List.map_congr_left
    intro s _
    rw [Function.comp_apply, List.foldl_map]
    rfl
  rw [hmoved]
  generalize screens.map _ = moved
  rw [List.zip_map_right, List.map_map]
  generalize moved.zip sizes = places
  generalize moved.headD (0, 0) = origin
  -- Which screen is the primary is in the flags alone.
  have hfst : ((places.map (Prod.map id fun p => (p.1.toInt32, p.2.toInt32))).zipIdx.map Prod.fst).map (fun p =>
      (⟨p.1.1 - origin.1, p.1.2 - origin.2, p.2.1.toUInt32, p.2.2.toUInt32⟩ : Screen)) =
      places.map fun p => ⟨p.1.1 - origin.1, p.1.2 - origin.2, p.2.1, p.2.2⟩ := by
    rw [List.zipIdx_map_fst, List.map_map]
    rfl
  rw [List.map_map] at hfst
  exact hfst

/-- For screens that fit, the layout keeps them apart and adjacent exactly if they are spared; a desktop is divided
unless a monitor starts past what 32 bits can tell; and both clients lay screens out alike. -/
theorem layouts_kept :
    (∀ screens, Fits adjust screens → (Kept adjust screens (arranged adjust screens) ↔ Spared adjust screens)) ∧
    (∀ width height count,
      ((divided width height count).length = max count.toNat 1 ∧ Row height 0 (divided width height count) width.toNat) ↔
        (max count.toNat 1 - 1) * (width.toNat / max count.toNat 1) < 2 ^ 31) ∧
    ∀ screens scale, screens.length ≤ maxMonitors → (∀ s ∈ screens, s.width.toNat < 2 ^ 31 ∧ s.height.toNat < 2 ^ 31) →
      (buildLayout (screens.map rectOf) scale).1.map MonitorLayout.screen = arranged adjust screens := by
  refine ⟨fun screens hfit => arranged_iff hadjust hfit, fun width height count => divided_iff width height count, ?_⟩
  intro screens scale hlen hsize
  exact buildLayout_eq hadjust scale hlen hsize

end Sizes

/-- The sizes that are taken. -/
def sized (w h : UInt32) : UInt32 × UInt32 :=
  ((if w.toNat < 200 then 200 else if 8192 < w.toNat then 8192 else w) &&& ~~~1,
    if h.toNat < 200 then 200 else if 8192 < h.toNat then 8192 else h)

theorem sized_adjusts : Adjusts sized := by
  intro w h
  refine ⟨?_, clamped_toNat h⟩
  show ((if w.toNat < 200 then 200 else if 8192 < w.toNat then 8192 else w) &&& ~~~1 : UInt32).toNat = _
  rw [even_toNat, clamped_toNat]

/-- An odd screen, and an even one beside it. -/
def abreast : List Screen := [⟨0, 0, 1281, 800⟩, ⟨1281, 0, 1024, 768⟩]

theorem abreast_fits : Fits sized abreast := by
  constructor
  · decide
  · decide
  · decide
  · decide

theorem abreast_spared : Spared sized abreast := by
  constructor
  · decide
  · decide
  · decide

theorem layouts_kept_abreast :
    arranged sized abreast = [⟨0, 0, 1280, 800⟩, ⟨1280, 0, 1024, 768⟩] ∧ Kept sized abreast (arranged sized abreast) :=
  ⟨by decide, ((layouts_kept sized_adjusts).1 abreast abreast_fits).2 abreast_spared⟩

/-- Four screens of an odd width, two by two. -/
def grid : List Screen := [⟨0, 0, 1281, 800⟩, ⟨1281, 0, 1281, 800⟩, ⟨0, 800, 1281, 800⟩, ⟨1281, 800, 1281, 800⟩]

/-- Screens in a grid are moved once for every row, so that they overlap. -/
theorem grid_overlaps : ¬∀ adjust, Adjusts adjust → ∀ screens : List Screen, (screens.Pairwise fun a b => ¬a.Overlaps b) →
    (∀ s ∈ screens, 0 < s.width ∧ 0 < s.height) → Kept adjust screens (arranged adjust screens) := by
  intro h
  have hkept := h sized sized_adjusts grid (by decide) (by decide)
  exact absurd hkept.apart (by decide)

end Vento.Freerdp
