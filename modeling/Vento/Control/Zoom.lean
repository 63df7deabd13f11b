import Vento.Control.Viewport
/-!
# The zoom ladder

Which scales `snapScale` keeps, and what the zoom buttons land on. A stop catches the
scales within 4% of it and the last one that does wins, so a rung that is a stop is only
kept if its own quantisation is caught by no later one, and the fit only fits if the other
axis's does not catch it: `SettledAt` and `FitAlone` are when that is so.
-/

namespace Vento.Control

open Vento.Lib Java

namespace Viewport

/-! ## Runs -/

inductive Action where
  | setDesktopSize (w h : Int32)
  | setViewSize (w h : Int32)
  | setInsets (left top right bottom : Int32)
  | setPanMargins (left top right bottom : Int32)
  | setFitSizes (sizes : List Int32)
  | setFocus (dx dy : ℚ)
  | centreOn (dx dy s : ℚ)
  | setScale (s : ℚ)
  | panBy (screenDx screenDy : ℚ)
  | zoomIn
  | zoomOut
  | zoomToFit
  | zoomToFill

def apply (v : Viewport) : Action → Viewport
  | .setDesktopSize w h => v.setDesktopSize w h
  | .setViewSize w h => v.setViewSize w h
  | .setInsets left top right bottom => v.setInsets left top right bottom
  | .setPanMargins left top right bottom => v.setPanMargins left top right bottom
  | .setFitSizes sizes => v.setFitSizes sizes
  | .setFocus dx dy => v.setFocus dx dy
  | .centreOn dx dy s => v.centreOn dx dy s
  | .setScale s => v.setScale s
  | .panBy screenDx screenDy => v.panBy screenDx screenDy
  | .zoomIn => v.zoomIn
  | .zoomOut => v.zoomOut
  | .zoomToFit => v.zoomToFit
  | .zoomToFill => v.zoomToFill

/-- The ladder is that of the sizes, and the index is at the rung nearest to the scale. -/
structure Sound (v : Viewport) : Prop where
  ladder : v.ladder = v.buildLadder
  index : v.ladderIndex = nearest v.scale v.ladder

theorem sound_rebuild (v : Viewport) : v.rebuildLadder.Sound := ⟨rfl, rfl⟩

/-- What centring leaves alone. -/
theorem centreOn_frame (v : Viewport) (dx dy s : ℚ) :
    (v.centreOn dx dy s).ladder = v.ladder ∧ (v.centreOn dx dy s).toSizes = v.toSizes ∧
      (v.centreOn dx dy s).scale = s := by
  unfold centreOn
  split
  · exact ⟨rfl, rfl, rfl⟩
  · simp only
    split <;> exact ⟨rfl, rfl, rfl⟩

theorem centreOn_index {v : Viewport} (hv : v.Sound) (dx dy s : ℚ) :
    (v.centreOn dx dy s).ladderIndex = nearest s v.ladder := by
  unfold centreOn
  split
  · rename_i h0
    have hempty : v.ladder = [] := by rw [hv.ladder, Sizes.buildLadder, if_pos h0]
    rw [hempty]
    exact hv.index.trans (by rw [hempty]; rfl)
  · simp only
    split
    · rfl
    · rename_i hscale
      rw [← not_not.1 hscale]
      exact hv.index

theorem Sound.centreOn {v : Viewport} (hv : v.Sound) (dx dy s : ℚ) : (v.centreOn dx dy s).Sound := by
  obtain ⟨hladder, hsizes, hscale⟩ := centreOn_frame v dx dy s
  refine ⟨by rw [hladder, hsizes, hv.ladder], ?_⟩
  rw [hladder, hscale, centreOn_index hv]

theorem Sound.setScale {v : Viewport} (hv : v.Sound) (s : ℚ) : (v.setScale s).Sound := hv.centreOn _ _ _

theorem Sound.apply {v : Viewport} (hv : v.Sound) (a : Action) : (v.apply a).Sound := by
  cases a with
  | setDesktopSize w h => exact sound_rebuild _
  | setViewSize w h => exact sound_rebuild _
  | setInsets left top right bottom => exact sound_rebuild _
  | setFitSizes sizes => exact sound_rebuild _
  | setPanMargins left top right bottom =>
    show (v.setPanMargins left top right bottom).Sound
    unfold setPanMargins
    split
    · exact hv
    · have hmargin : Sound { v with margin := .of left top right bottom } := ⟨hv.ladder, hv.index⟩
      exact hmargin.centreOn _ _ _
  | setFocus dx dy => exact ⟨hv.ladder, hv.index⟩
  | centreOn dx dy s => exact hv.centreOn dx dy s
  | setScale s => exact hv.setScale s
  | panBy screenDx screenDy => exact hv.centreOn _ _ _
  | zoomIn =>
    show v.zoomIn.Sound
    unfold Viewport.zoomIn
    split
    · exact hv.setScale _
    · exact hv
  | zoomOut =>
    show v.zoomOut.Sound
    unfold Viewport.zoomOut
    split
    · exact hv.setScale _
    · exact hv
  | zoomToFit => exact hv.setScale _
  | zoomToFill => exact hv.setScale _

theorem sound_run (density : ℚ) (acts : List Action) : (acts.foldl apply (new density)).Sound := by
  have hempty : (new density).buildLadder = [] := if_pos (.inl (show maxInt (0 - 0 - 0) 0 = 0 by decide))
  have hnew : (new density).Sound := ⟨hempty.symm, rfl⟩
  clear hempty
  generalize new density = v at hnew
  induction acts generalizing v with
  | nil => exact hnew
  | cons a acts ih => exact ih (v.apply a) (hnew.apply a)

end Viewport

namespace Sizes

/-! ## Stops -/

/-- The last stop within 4% of a quantised scale. -/
def caught (v : Sizes) (q : ℚ) : Option ℚ := (lastStop (near (float v.fbW * q)) v.candidates).map (· / float v.fbW)

/-- Where a quantised scale goes, before the limits. -/
def stop (v : Sizes) (q : ℚ) : ℚ := (v.caught q).getD q

theorem snapScale_eq (v : Sizes) (s : ℚ) : v.snapScale s = clamp (v.stop (quantise s)) v.minScale v.maxScale := by
  have h := foldl_stops (near (float v.fbW * quantise s)) (· / float v.fbW) v.candidates (quantise s)
  unfold snapScale snapTo
  simp only
  rw [h]
  rfl

theorem fbW_float_pos (v : Sizes) : 0 < float v.fbW :=
  Int.cast_pos.2 (Int.lt_of_lt_of_le Int.zero_lt_one (Int32.le_iff_toInt_le.1 v.fbW_pos))

theorem fbH_float_pos (v : Sizes) : 0 < float v.fbH :=
  Int.cast_pos.2 (Int.lt_of_lt_of_le Int.zero_lt_one (Int32.le_iff_toInt_le.1 v.fbH_pos))

theorem castInt_float (n : Int32) : castInt (float n) = n := by
  have hlo := Int32.le_toInt n
  have hhi := Int32.toInt_lt n
  apply Int32.toInt_inj.1
  rw [toInt_castInt, float, trunc_intCast, clamp_of_mem hlo (by omega)]

theorem quantise_quantise (s : ℚ) : quantise (quantise s) = quantise s := by
  have h : quantise s * 128 = float (castInt (s * 128)) := by
    unfold quantise
    rw [div_mul_cancel₀ _ (by norm_num)]
  rw [quantise, h, castInt_float]
  rfl

theorem quantise_le {s : ℚ} (hs : 0 ≤ s) : quantise s ≤ s := by
  have hs128 : 0 ≤ s * 128 := by linarith
  have htrunc : float (castInt (s * 128)) ≤ s * 128 := by
    rw [float, toInt_castInt]
    rcases trunc_cases (s * 128) with ⟨-, h0, hle, -⟩ | ⟨hlt, -⟩
    · rcases clamp_cases (trunc (s * 128)) (-2 ^ 31) (2 ^ 31 - 1) with ⟨hlt, -⟩ | ⟨hgt, h⟩ | h
      · have : (0 : Int) ≤ trunc (s * 128) := by exact_mod_cast h0
        omega
      · rw [h]
        have : (((2 : Int) ^ 31 - 1 : Int) : ℚ) ≤ trunc (s * 128) := by exact_mod_cast hgt.le
        linarith
      · rw [h]
        exact hle
    · linarith
  unfold quantise
  linarith

/-- A stop that catches a scale is of a candidate width. -/
theorem caught_eq_some {v : Sizes} {q c : ℚ} (h : v.caught q = some c) :
    0 < c ∧ |float v.fbW * q - float v.fbW * c| ≤ 4 / 100 * (float v.fbW * c) ∧ float v.fbW * c ∈ v.candidates := by
  obtain ⟨w, hw, rfl⟩ := Option.map_eq_some_iff.1 h
  obtain ⟨hmem, hnear⟩ := lastStop_mem hw
  obtain ⟨hpos, hle⟩ := of_decide_eq_true hnear
  have hfb := fbW_float_pos v
  rw [mul_div_cancel₀ _ hfb.ne']
  exact ⟨div_pos hpos hfb, hle, hmem⟩

/-- A stop catches itself, if none later does. -/
theorem caught_stop_ne_none {v : Sizes} {q c : ℚ} (h : v.caught q = some c) : v.caught c ≠ none := by
  obtain ⟨hpos, -, hmem⟩ := caught_eq_some h
  have hw : 0 < float v.fbW * c := mul_pos (fbW_float_pos v) hpos
  have hnear : near (float v.fbW * c) (float v.fbW * c) = true := by
    refine decide_eq_true ⟨hw, ?_⟩
    rw [sub_self, abs_zero]
    linarith
  intro hnone
  have hfilter := List.getLast?_eq_none_iff.1 (Option.map_eq_none_iff.1 hnone)
  exact absurd (List.filter_eq_nil_iff.1 hfilter _ hmem) (not_not.2 hnear)

/-! ## What is kept -/

/-- The scales at which the desktop is as wide as the content, and as high. -/
def fitWidth (v : Sizes) : ℚ := float v.contentWidth / float v.fbW

def fitHeight (v : Sizes) : ℚ := float v.contentHeight / float v.fbH

/-- Where fit width is the smaller, fit height does not catch its quantisation. -/
def FitAlone (v : Sizes) : Prop :=
  v.minScale < v.maxScale → v.fitWidth < v.fitHeight →
    near (float v.fbW * quantise v.fitWidth) (float v.fbW * v.fitHeight) = false

/-- What catches the quantisation of a scale is what catches its own, and the limits keep what is beyond them. -/
structure SettledAt (v : Sizes) (r : ℚ) : Prop where
  inside : ∀ c ∈ v.caught (quantise r), v.minScale < c → c < v.maxScale → v.caught (quantise c) = some c
  below : v.stop (quantise r) ≤ v.minScale → v.FitAlone
  above : v.minScale < v.maxScale → v.maxScale ≤ v.stop (quantise r) → v.maxScale ≤ v.stop (quantise v.maxScale)

instance (v : Sizes) : Decidable v.FitAlone := inferInstanceAs (Decidable (_ → _ → _))

instance (v : Sizes) (r : ℚ) : Decidable (v.SettledAt r) :=
  decidable_of_iff
    ((∀ c ∈ v.caught (quantise r), v.minScale < c → c < v.maxScale → v.caught (quantise c) = some c) ∧
      (v.stop (quantise r) ≤ v.minScale → v.FitAlone) ∧
      (v.minScale < v.maxScale → v.maxScale ≤ v.stop (quantise r) → v.maxScale ≤ v.stop (quantise v.maxScale)))
    ⟨fun ⟨inside, below, above⟩ => ⟨inside, below, above⟩, fun ⟨inside, below, above⟩ => ⟨inside, below, above⟩⟩

theorem minScale_eq {v : Sizes} (h : ¬(v.contentWidth = 0 ∨ v.contentHeight = 0)) :
    v.minScale = min v.fitWidth v.fitHeight := if_neg h

theorem contentWidth_pos {v : Sizes} (h : ¬(v.contentWidth = 0 ∨ v.contentHeight = 0)) :
    0 < v.contentWidth ∧ 0 < v.contentHeight := by
  have hpos : ∀ n : Int32, maxInt n 0 ≠ 0 → 0 < maxInt n 0 := by
    intro n hn
    have hle := Viewport.zero_le_of_le (zero_le_maxInt n)
    have hne : (maxInt n 0).toInt ≠ 0 := fun h0 => hn (Int32.toInt_inj.1 h0)
    rw [Int32.lt_iff_toInt_lt, Int32.toInt_zero]
    omega
  exact ⟨hpos _ fun h0 => h (.inl h0), hpos _ fun h0 => h (.inr h0)⟩

theorem fit_pos {v : Sizes} (h : ¬(v.contentWidth = 0 ∨ v.contentHeight = 0)) : 0 < v.fitWidth ∧ 0 < v.fitHeight := by
  obtain ⟨hw, hh⟩ := contentWidth_pos h
  have hw : 0 < float v.contentWidth := Int.cast_pos.2 (Int32.lt_iff_toInt_lt.1 hw)
  have hh : 0 < float v.contentHeight := Int.cast_pos.2 (Int32.lt_iff_toInt_lt.1 hh)
  exact ⟨div_pos hw (fbW_float_pos v), div_pos hh (fbH_float_pos v)⟩

theorem minScale_pos {v : Sizes} (h : ¬(v.contentWidth = 0 ∨ v.contentHeight = 0)) : 0 < v.minScale := by
  rw [minScale_eq h]
  exact lt_min (fit_pos h).1 (fit_pos h).2

/-- Fit height catches first, and then fit width. -/
theorem caught_eq {v : Sizes} (h : ¬(v.contentWidth = 0 ∨ v.contentHeight = 0)) (q : ℚ) :
    (near (float v.fbW * q) (float v.fbW * v.fitHeight) = true → v.caught q = some v.fitHeight) ∧
      (near (float v.fbW * q) (float v.fbW * v.fitHeight) = false →
        near (float v.fbW * q) (float v.fbW * v.fitWidth) = true → v.caught q = some v.fitWidth) := by
  have hfb := fbW_float_pos v
  have hw : float v.fbW * v.fitWidth = float v.contentWidth := mul_div_cancel₀ _ hfb.ne'
  have hcand : ∃ steps, v.candidates = steps ++ [float v.contentWidth] ++ [float v.fbW * v.fitHeight] := by
    unfold candidates
    rw [if_pos (contentWidth_pos h)]
    exact ⟨_, (List.append_assoc _ [_] [_]).symm⟩
  obtain ⟨steps, hcand⟩ := hcand
  unfold caught
  rw [hcand, lastStop_append_singleton, lastStop_append_singleton, hw]
  constructor
  · intro hnear
    rw [if_pos hnear, Option.map_some, mul_div_cancel_left₀ _ hfb.ne']
  · intro hfar hnear
    rw [if_neg (Bool.eq_false_iff.1 hfar), if_pos hnear, Option.map_some]
    rfl

/-- What a stop catches from below is near to whatever lies between. -/
theorem near_between {w m c : ℚ} (hm : 0 < m) (hwm : w ≤ m) (hmc : m ≤ c) (hc : |w - c| ≤ 4 / 100 * c) :
    near w m = true := by
  refine decide_eq_true ⟨hm, ?_⟩
  rw [abs_sub_comm, abs_of_nonneg (by linarith)] at hc ⊢
  linarith

/-- The quantised fit goes no higher than the fit, unless fit height catches it. -/
theorem stop_minScale {v : Sizes} (h : ¬(v.contentWidth = 0 ∨ v.contentHeight = 0)) :
    v.stop (quantise v.minScale) ≤ v.minScale ↔ ¬(v.fitWidth < v.fitHeight ∧
      near (float v.fbW * quantise v.fitWidth) (float v.fbW * v.fitHeight) = true) := by
  have hfb := fbW_float_pos v
  have hpos := minScale_pos h
  have hmin := minScale_eq h
  have hq := quantise_le hpos.le
  obtain ⟨hheight, hwidth⟩ := caught_eq h (quantise v.minScale)
  by_cases hnear : near (float v.fbW * quantise v.minScale) (float v.fbW * v.fitHeight) = true
  · rw [stop, hheight hnear, Option.getD_some]
    constructor
    · rintro hle ⟨hlt, -⟩
      rw [hmin, min_eq_left hlt.le] at hle
      exact absurd hle (not_le.2 hlt)
    · intro hnot
      rw [hmin]
      refine le_min (not_lt.1 fun hlt => hnot ⟨hlt, ?_⟩) le_rfl
      rwa [hmin, min_eq_left hlt.le] at hnear
  · refine iff_of_true ?_ ?_
    · rw [stop]
      cases hc : v.caught (quantise v.minScale) with
      | none => exact hq
      | some c =>
        obtain ⟨hcpos, hle, -⟩ := caught_eq_some hc
        by_contra hgt
        have hgt : v.minScale < c := not_le.1 hgt
        have hbetween : near (float v.fbW * quantise v.minScale) (float v.fbW * v.minScale) = true :=
          near_between (mul_pos hfb hpos) (mul_le_mul_of_nonneg_left hq hfb.le)
            (mul_le_mul_of_nonneg_left hgt.le hfb.le) hle
        rcases min_choice v.fitWidth v.fitHeight with hw | hh
        · rw [← hmin] at hw
          have hcaught := hwidth (Bool.eq_false_iff.2 hnear) (by rwa [← hw])
          rw [hc] at hcaught
          cases hcaught
          exact absurd hw (ne_of_lt hgt)
        · rw [← hmin] at hh
          exact hnear (by rwa [← hh])
    · rintro ⟨hlt, hfit⟩
      rw [hmin, min_eq_left hlt.le] at hnear
      exact hnear hfit

theorem stop_minScale_iff {v : Sizes} (h : ¬(v.contentWidth = 0 ∨ v.contentHeight = 0)) :
    (v.minScale < v.maxScale → v.stop (quantise v.minScale) ≤ v.minScale) ↔ v.FitAlone := by
  rw [stop_minScale h, FitAlone]
  simp only [not_and, Bool.not_eq_true]

/-- A scale is at rest where it is settled, and only there. -/
theorem snapScale_snapScale_iff {v : Sizes} (h : ¬(v.contentWidth = 0 ∨ v.contentHeight = 0))
    (hlim : v.minScale ≤ v.maxScale) (r : ℚ) : v.snapScale (v.snapScale r) = v.snapScale r ↔ v.SettledAt r := by
  have hfit := stop_minScale_iff h
  rw [snapScale_eq, snapScale_eq v r]
  by_cases hlt : v.minScale < v.maxScale
  swap
  · -- between equal limits there is one scale
    have heq : v.minScale = v.maxScale := le_antisymm hlim (not_lt.1 hlt)
    have hone : ∀ x, clamp x v.minScale v.maxScale = v.minScale := by
      intro x
      have hmem := clamp_mem x hlim
      exact le_antisymm (hmem.2.trans heq.ge) hmem.1
    rw [hone, hone]
    exact iff_of_true rfl
      ⟨fun c _ hlo hhi => absurd (hlo.trans hhi) hlt, fun _ hl => absurd hl hlt, fun hl => absurd hl hlt⟩
  have hfit : v.stop (quantise v.minScale) ≤ v.minScale ↔ v.FitAlone := by
    rw [← hfit]
    exact ⟨fun hle _ => hle, fun hle => hle hlt⟩
  rcases le_or_gt (v.stop (quantise r)) v.minScale with hlo | hlo
  · rw [(clamp_eq_lo_iff hlt).2 hlo, clamp_eq_lo_iff hlt, hfit]
    refine ⟨fun hf => ⟨fun c hc hmin _ => ?_, fun _ => hf, fun _ hmax => ?_⟩, fun hr => hr.below hlo⟩
    · rw [stop, hc, Option.getD_some] at hlo
      exact absurd hmin (not_lt.2 hlo)
    · exact absurd (hmax.trans hlo) (not_le.2 hlt)
  · rcases le_or_gt v.maxScale (v.stop (quantise r)) with hhi | hhi
    · rw [(clamp_eq_hi_iff hlt).2 hhi, clamp_eq_hi_iff hlt]
      refine ⟨fun ha => ⟨fun c hc _ hmax => ?_, fun hle => ?_, fun _ _ => ha⟩, fun hr => hr.above hlt hhi⟩
      · rw [stop, hc, Option.getD_some] at hhi
        exact absurd hmax (not_lt.2 hhi)
      · exact absurd hlo (not_lt.2 hle)
    · rw [(clamp_eq_mid_iff hlo hhi).2 rfl, clamp_eq_mid_iff hlo hhi]
      have hinside : v.stop (quantise (v.stop (quantise r))) = v.stop (quantise r) ↔
          ∀ c, v.caught (quantise r) = some c → v.caught (quantise c) = some c := by
        cases hc : v.caught (quantise r) with
        | none =>
          have hr : v.stop (quantise r) = quantise r := by rw [stop, hc, Option.getD_none]
          rw [hr, quantise_quantise, hr]
          exact iff_of_true rfl nofun
        | some c =>
          have hr : v.stop (quantise r) = c := by rw [stop, hc, Option.getD_some]
          rw [hr]
          constructor
          · rintro hstop c' ⟨⟩
            cases hq : v.caught (quantise c) with
            | none =>
              -- an uncaught stop would be its own quantisation, and catches itself
              rw [stop, hq, Option.getD_none] at hstop
              rw [hstop] at hq
              exact absurd hq (caught_stop_ne_none hc)
            | some d =>
              rw [stop, hq, Option.getD_some] at hstop
              rw [hstop]
          · intro hall
            rw [stop, hall c rfl, Option.getD_some]
      rw [hinside]
      refine ⟨fun hall => ⟨fun c hc _ _ => hall c hc, fun hle => ?_, fun _ hle => ?_⟩, fun hr c hc => ?_⟩
      · exact absurd hlo (not_lt.2 hle)
      · exact absurd hhi (not_lt.2 hle)
      · have hstop : v.stop (quantise r) = c := by rw [stop, hc, Option.getD_some]
        rw [hstop] at hlo hhi
        exact hr.inside c hc hlo hhi

/-- Where the fit is kept, and every scale of the ladder settles. -/
structure Settled (v : Sizes) : Prop where
  limits : v.minScale ≤ v.maxScale
  fit : v.FitAlone
  scales : ∀ r ∈ v.rawScales, v.SettledAt r

instance (v : Sizes) : Decidable v.Settled :=
  decidable_of_iff (v.minScale ≤ v.maxScale ∧ v.FitAlone ∧ ∀ r ∈ v.rawScales, v.SettledAt r)
    ⟨fun ⟨limits, fit, scales⟩ => ⟨limits, fit, scales⟩, fun ⟨limits, fit, scales⟩ => ⟨limits, fit, scales⟩⟩

theorem mem_buildLadder {v : Sizes} {e : ℚ} (he : e ∈ v.buildLadder) : ∃ r ∈ v.rawScales, v.snapScale r = e := by
  unfold buildLadder at he
  split at he
  · cases he
  · exact List.mem_map.1 ((List.mem_insertionSort _).1 (thin_subset _ _ e he))

theorem buildLadder_ascending (v : Sizes) : v.buildLadder.Pairwise (· < ·) := by
  unfold buildLadder
  split
  · exact List.Pairwise.nil
  · exact thin_ascending (by norm_num) _

theorem buildLadder_fixed {v : Sizes} (h : ¬(v.contentWidth = 0 ∨ v.contentHeight = 0)) (hs : v.Settled) :
    ∀ e ∈ v.buildLadder, v.snapScale e = e := by
  intro e he
  obtain ⟨r, hr, rfl⟩ := mem_buildLadder he
  exact (snapScale_snapScale_iff h hs.limits r).2 (hs.scales r hr)

/-- The desktop at a scale is no larger than the content. -/
def Fits (v : Sizes) (s : ℚ) : Prop := float v.fbW * s ≤ float v.contentWidth ∧ float v.fbH * s ≤ float v.contentHeight

instance (v : Sizes) (s : ℚ) : Decidable (v.Fits s) := inferInstanceAs (Decidable (_ ∧ _))

theorem fits_iff {v : Sizes} (h : ¬(v.contentWidth = 0 ∨ v.contentHeight = 0)) (s : ℚ) : v.Fits s ↔ s ≤ v.minScale := by
  rw [minScale_eq h, le_min_iff, fitWidth, fitHeight, le_div_iff₀' (fbW_float_pos v), le_div_iff₀' (fbH_float_pos v)]
  rfl

/-- Where the desktop fits at the scale that the fit is snapped to. -/
theorem fits_snapScale_iff {v : Sizes} (h : ¬(v.contentWidth = 0 ∨ v.contentHeight = 0)) :
    v.Fits (v.snapScale v.minScale) ↔ v.FitAlone := by
  rw [fits_iff h, ← stop_minScale_iff h, snapScale_eq]
  constructor
  · intro hle hlt
    rcases clamp_cases (v.stop (quantise v.minScale)) v.minScale v.maxScale with ⟨hlow, -⟩ | ⟨-, hc⟩ | hc
    · exact hlow.le
    · rw [hc] at hle
      exact absurd hlt (not_lt.2 hle)
    · rwa [hc] at hle
  · intro himp
    rcases clamp_cases (v.stop (quantise v.minScale)) v.minScale v.maxScale with ⟨-, hc⟩ | ⟨hgt, hc⟩ | hc
    · exact hc.le
    · rw [hc]
      exact not_lt.1 fun hlt => absurd (himp hlt) (not_le.2 (hlt.trans hgt))
    · by_cases hlt : v.minScale < v.maxScale
      · rw [hc]
        exact himp hlt
      · have hmax := not_lt.1 hlt
        unfold clamp
        split
        · exact le_rfl
        · split
          · exact hmax
          · rename_i hhi
            exact (not_lt.1 hhi).trans hmax

end Sizes

namespace Viewport

/-! ## The buttons -/

/-- What the zoom buttons promise. -/
structure ZoomLaws (v : Viewport) : Prop where
  ascending : v.ladder.Pairwise (· < ·)
  fixed : ∀ e ∈ v.ladder, v.snapScale e = e
  zoomIn : v.canZoomIn → v.ladder[v.ladderIndex + 1]? = some v.zoomIn.scale ∧ v.zoomIn.ladderIndex = v.ladderIndex + 1
  zoomOut : v.canZoomOut →
    v.ladder[v.ladderIndex - 1]? = some v.zoomOut.scale ∧ v.zoomOut.ladderIndex = v.ladderIndex - 1
  zoomToFit : v.Fits v.zoomToFit.scale

theorem setScale_scale (v : Viewport) (s : ℚ) : (v.setScale s).scale = v.snapScale s := (centreOn_frame _ _ _ _).2.2

/-- A rung that is kept is where the scale goes, and the index with it. -/
theorem setScale_rung {v : Viewport} (hv : v.Sound) (hfixed : ∀ e ∈ v.ladder, v.snapScale e = e) {i : Nat}
    (hi : i < v.ladder.length) :
    (v.setScale v.ladder[i]).scale = v.ladder[i] ∧ (v.setScale v.ladder[i]).ladderIndex = i := by
  have hscale := hfixed v.ladder[i] (List.getElem_mem hi)
  refine ⟨(setScale_scale v _).trans hscale, ?_⟩
  have hasc : v.ladder.Pairwise (· < ·) := hv.ladder ▸ v.buildLadder_ascending
  rw [setScale, centreOn_index hv, hscale, nearest_getElem hasc hi]

theorem zoomLaws_of_settled {v : Viewport} (hv : v.Sound) (hc : v.HasContent) (hs : v.Settled) : v.ZoomLaws := by
  have hfixed : ∀ e ∈ v.ladder, v.snapScale e = e := hv.ladder ▸ v.buildLadder_fixed hc.ne_zero hs
  refine ⟨hv.ladder ▸ v.buildLadder_ascending, hfixed, fun hin => ?_, fun hout => ?_, ?_⟩
  · obtain ⟨hscale, hindex⟩ := setScale_rung hv hfixed hin
    rw [zoomIn, if_pos hin, List.getD_eq_getElem?_getD, List.getElem?_eq_getElem hin, Option.getD_some, hscale]
    exact ⟨rfl, hindex⟩
  · have hlen : v.ladderIndex - 1 < v.ladder.length := by
      rw [canZoomOut, hv.index] at hout
      have := nearest_lt hout
      rw [hv.index]
      omega
    obtain ⟨hscale, hindex⟩ := setScale_rung hv hfixed hlen
    rw [zoomOut, if_pos hout, List.getD_eq_getElem?_getD, List.getElem?_eq_getElem hlen, Option.getD_some, hscale]
    exact ⟨rfl, hindex⟩
  · rw [zoomToFit, setScale_scale]
    exact (v.fits_snapScale_iff hc.ne_zero).2 hs.fit

/-- Of every view that a run comes to: the ladder ascends, the fit fits where fit height does not catch it, a scale of the
ladder is at rest where it is settled, and where all are the zoom buttons keep their promise. -/
theorem zoom_laws (density : ℚ) (acts : List Action) (v : Viewport) (hrun : acts.foldl apply (new density) = v)
    (hc : v.HasContent) :
    v.ladder.Pairwise (· < ·) ∧ (v.Fits v.zoomToFit.scale ↔ v.FitAlone) ∧
      (v.minScale ≤ v.maxScale → ((∀ r ∈ v.rawScales, v.snapScale (v.snapScale r) = v.snapScale r) ↔
        ∀ r ∈ v.rawScales, v.SettledAt r)) ∧
      (v.Settled → v.ZoomLaws) := by
  have hv : v.Sound := hrun ▸ sound_run density acts
  refine ⟨hv.ladder ▸ v.buildLadder_ascending, ?_, fun hlim => ?_, zoomLaws_of_settled hv hc⟩
  · rw [zoomToFit, setScale_scale]
    exact v.fits_snapScale_iff hc.ne_zero
  · have hiff := v.snapScale_snapScale_iff hc.ne_zero hlim
    exact ⟨fun h r hr => (hiff r).1 (h r hr), fun h r hr => (hiff r).2 (h r hr)⟩

/-- A desktop in a window, at a density. -/
def windowed (density : ℚ) (w h viewW viewH : Int32) : Viewport :=
  [Action.setDesktopSize w h, .setViewSize viewW viewH].foldl apply (new density)

theorem zoom_laws_wide : (windowed 3 1920 1080 2400 1080).ZoomLaws :=
  (zoom_laws 3 _ (windowed 3 1920 1080 2400 1080) rfl ⟨by decide, by decide⟩).2.2.2 (by decide +kernel)

/-- A desktop a little wider than its window's shape is fitted to the height, and a small one in a large window has a
rung that the buttons never land on. -/
theorem zoom_overflows :
    ¬(windowed 1 1920 1080 1920 1100).Fits (windowed 1 1920 1080 1920 1100).zoomToFit.scale ∧
      4 ∈ (windowed 1 100 100 400 400).ladder ∧ (windowed 1 100 100 400 400).snapScale 4 = 2 := by
  refine ⟨?_, ?_, ?_⟩ <;> decide +kernel

end Viewport

end Vento.Control
