import Vento.Linux.View
/-!
# What is pointed at is what is drawn

What the picture in a window promises the pointer, of `desktop_at` everywhere and of `desktop_beyond` on both sides of
the window's edge. The one is pinned to the picture's ends and the other is not, so where an end is in the window they
meet only if the picture is not shrunk to a half: `layout_matches_iff` has exactly when all is kept.
-/

namespace Vento.Linux.Gui

open Vento.Lib Sampling

/-- A window is as wide and as high as nothing, or more. -/
structure Window extends Rect where
  ordered : ∀ d, min d ≤ max d

variable {desktop : Axis → Nat} {shown : Shown desktop} {l : Layout}

/-- What is promised. The picture's device pixels are those from 0 up to `pixels`. -/
structure Layout.Matches (l : Layout) (shown : Shown desktop) : Prop where
  names : ∀ pos d, shown.first d ≤ (l.desktopAt pos d).toInt ∧ (l.desktopAt pos d).toInt < shown.first d + shown.size d
  monotone : ∀ pos pos' d, pos d ≤ pos' d → (l.desktopAt pos d).toInt ≤ (l.desktopAt pos' d).toInt
  ends : ∀ pos d, (l.pixel d (pos d) = 0 → (l.desktopAt pos d).toInt = shown.first d) ∧
    (l.pixel d (pos d) = l.pixels d - 1 → (l.desktopAt pos d).toInt = shown.first d + shown.size d - 1)
  reaches : ∀ n : Axis → Int, (∀ d, shown.first d ≤ n d ∧ n d < shown.first d + shown.size d) →
    ∃ pos, ∀ d, shown.size d ≤ l.pixels d →
      0 ≤ l.pixel d (pos d) ∧ l.pixel d (pos d) < l.pixels d ∧ (l.desktopAt pos d).toInt = n d
  shifts : ∀ pos d, l.pixels d = shown.size d → 0 ≤ l.pixel d (pos d) → l.pixel d (pos d) < l.pixels d →
    (l.desktopAt pos d).toInt = shown.first d + l.pixel d (pos d)
  inside : ∀ pos, l.window.contains pos → l.desktopBeyond pos desktop = l.desktopAt pos
  crosses : ∀ pos pos' d, pos d.other = pos' d.other → pos d ≤ pos' d →
    (l.desktopBeyond pos desktop d).toInt ≤ (l.desktopBeyond pos' desktop d).toInt
  beside : ∀ pos d, (l.window.min d ≤ pos d ∧ pos d ≤ l.window.max d) →
    ¬ (l.window.min d.other ≤ pos d.other ∧ pos d.other ≤ l.window.max d.other) →
    0 ≤ l.pixel d (pos d) → l.pixel d (pos d) < l.pixels d → l.desktopBeyond pos desktop d = l.desktopAt pos d

/-- When it is kept: a picture that is more than a pixel wide is not drawn on one; it is drawn on more than half of its
width where its first device pixel is in the window, and on half where its last is; and a window that is all on one
side of it has nothing of the desktop on that side. -/
structure Layout.Fits (l : Layout) (shown : Shown desktop) (d : Axis) : Prop where
  ends : l.pixels d = 1 → shown.size d = 1
  first : l.pixel d (l.window.min d) ≤ 0 → 0 ≤ l.pixel d (l.window.max d) → shown.size d < 2 * l.pixels d
  last : l.pixel d (l.window.min d) ≤ l.pixels d - 1 → l.pixels d - 1 ≤ l.pixel d (l.window.max d) →
    shown.size d ≤ 2 * l.pixels d
  before : l.pixel d (l.window.max d) < 0 → shown.first d = 0
  after : l.pixels d < l.along d (l.window.min d) → shown.first d + shown.size d = desktop d

/-! ## Points and device pixels -/

@[simp]
theorem Axis.other_other (d : Axis) : d.other.other = d := by cases d <;> rfl

theorem Axis.other_ne (d : Axis) : d.other ≠ d := by cases d <;> decide

theorem Rect.contains_iff (r : Rect) (pos : Pos2) (d : Axis) :
    r.contains pos ↔
      (r.min d ≤ pos d ∧ pos d ≤ r.max d) ∧ r.min d.other ≤ pos d.other ∧ pos d.other ≤ r.max d.other := by
  cases d with
  | x => exact Iff.rfl
  | y => exact and_comm

/-- A point by its places on one axis and on the other. -/
def Axis.put (d : Axis) (a b : ℚ) : Pos2 := fun e => if e = d then a else b

@[simp]
theorem Axis.put_self (d : Axis) (a b : ℚ) : d.put a b d = a := if_pos rfl

@[simp]
theorem Axis.put_other (d : Axis) (a b : ℚ) : d.put a b d.other = b := if_neg d.other_ne

namespace Layout

section
variable (h : l.Drawn shown) (d : Axis)
include h

theorem along_le_iff {a b : ℚ} : l.along d a ≤ l.along d b ↔ a ≤ b := by
  unfold along
  rw [add_le_add_iff_right, mul_le_mul_iff_left₀ h.positive, sub_le_sub_iff_right]

theorem along_lt_iff {a b : ℚ} : l.along d a < l.along d b ↔ a < b := by
  rw [← not_le, along_le_iff h, not_le]

theorem exists_along (x : ℚ) : ∃ a, l.along d a = x := by
  refine ⟨l.rect.min d + (x - 1 / 1000) / l.pixelsPerPoint, ?_⟩
  unfold along
  rw [add_sub_cancel_left, div_mul_cancel₀ _ h.positive.ne', sub_add_cancel]

theorem pixel_mono {a b : ℚ} (hab : a ≤ b) : l.pixel d a ≤ l.pixel d b :=
  Int.floor_le_floor ((along_le_iff h d).2 hab)

theorem exists_pixel (q : Int) : ∃ a, l.pixel d a = q := by
  obtain ⟨a, ha⟩ := exists_along h d q
  exact ⟨a, by rw [pixel, ha, Int.floor_intCast]⟩

/-- Between two points every pixel from the one's to the other's has a point. -/
theorem exists_pixel_between {a b : ℚ} {q : Int} (hab : a ≤ b) (ha : l.pixel d a ≤ q) (hb : q ≤ l.pixel d b) :
    ∃ c, a ≤ c ∧ c ≤ b ∧ l.pixel d c = q := by
  rcases ha.lt_or_eq with hlt | heq
  · obtain ⟨c, hc⟩ := exists_along h d q
    refine ⟨c, ?_, ?_, by rw [pixel, hc, Int.floor_intCast]⟩
    · rw [← along_le_iff h d, hc]
      exact (Int.floor_lt.1 hlt).le
    · rw [← along_le_iff h d, hc]
      exact Int.le_floor.1 hb
  · exact ⟨a, le_rfl, hab, heq⟩

end

/-! ## The two beside each other -/

theorem desktopBeyond_inside {pos : Pos2} (hpos : l.window.contains pos) :
    l.desktopBeyond pos desktop = l.desktopAt pos :=
  if_pos hpos

section
variable (h : l.Drawn shown)
include h

/-- On the picture's device pixels they differ at its ends alone. -/
theorem beyond_eq_at_iff {pos : Pos2} (hpos : ¬ l.window.contains pos) {d : Axis} (h0 : 0 ≤ l.pixel d (pos d))
    (h1 : l.pixel d (pos d) < l.pixels d) :
    l.desktopBeyond pos desktop d = l.desktopAt pos d ↔
      (l.pixel d (pos d) = 0 → shown.size d < 2 * l.pixels d) ∧
        (l.pixel d (pos d) = l.pixels d - 1 → shown.size d ≤ 2 * l.pixels d) := by
  have hS := shown.size_pos d
  have hP := h.pixels_pos d
  rw [← Int32.toInt_inj, desktopBeyond_toInt h hpos, desktopAt_toInt h,
    carried_of_mem hS hP (shown.first_nonneg d) (shown.fits d) h0 h1, ← pinned_eq_centre_iff hS hP h0 h1]
  omega

theorem beside_of_fits {d : Axis} (hfits : l.Fits shown d) {pos : Pos2}
    (hin : l.window.min d ≤ pos d ∧ pos d ≤ l.window.max d) (hpos : ¬ l.window.contains pos)
    (h0 : 0 ≤ l.pixel d (pos d)) (h1 : l.pixel d (pos d) < l.pixels d) :
    l.desktopBeyond pos desktop d = l.desktopAt pos d := by
  have hlo := pixel_mono h d hin.1
  have hhi := pixel_mono h d hin.2
  rw [beyond_eq_at_iff h hpos h0 h1]
  exact ⟨fun hq => hfits.first (by omega) (by omega), fun hq => hfits.last (by omega) (by omega)⟩

theorem crosses_of_fits {d : Axis} (hfits : l.Fits shown d) {pos pos' : Pos2} (hother : pos d.other = pos' d.other)
    (hle : pos d ≤ pos' d) :
    (l.desktopBeyond pos desktop d).toInt ≤ (l.desktopBeyond pos' desktop d).toInt := by
  have hS := shown.size_pos d
  have hP := h.pixels_pos d
  have hfirst := shown.first_nonneg d
  have hwhole := shown.fits d
  have hpixel := pixel_mono h d hle
  by_cases hin : l.window.contains pos
  · by_cases hin' : l.window.contains pos'
    · rw [desktopBeyond_inside hin, desktopBeyond_inside hin', desktopAt_toInt h, desktopAt_toInt h]
      exact Int.add_le_add_left (pinned_mono hS hP hpixel) _
    · -- Out past the window's end.
      rw [desktopBeyond_inside hin, desktopAt_toInt h, desktopBeyond_toInt h hin']
      rw [Rect.contains_iff _ _ d] at hin hin'
      have hout : l.window.max d < pos' d := by
        by_contra hge
        exact hin' ⟨⟨hin.1.1.trans hle, not_lt.1 hge⟩, hother ▸ hin.2⟩
      have hlo := pixel_mono h d hin.1.1
      have hhi := pixel_mono h d hin.1.2
      have hpast := pixel_mono h d hout.le
      refine pinned_le_carried hS hP hfirst hwhole hpixel (fun hq hk => hfits.last ?_ ?_) (fun hk => hfits.before ?_)
      · omega
      · omega
      · omega
  · by_cases hin' : l.window.contains pos'
    · -- In from before its start.
      rw [desktopBeyond_inside hin', desktopAt_toInt h, desktopBeyond_toInt h hin]
      rw [Rect.contains_iff _ _ d] at hin hin'
      have hout : pos d < l.window.min d := by
        by_contra hge
        exact hin ⟨⟨not_lt.1 hge, hle.trans hin'.1.2⟩, hother ▸ hin'.2⟩
      have hlo := pixel_mono h d hin'.1.1
      have hhi := pixel_mono h d hin'.1.2
      refine carried_le_pinned hS hP hfirst hwhole hpixel (fun hq hk => hfits.first ?_ ?_) (fun hq => ?_)
      · omega
      · omega
      · have hpast : (l.pixels d : ℚ) < l.along d (l.window.min d) :=
          (Int.le_floor.1 hq).trans_lt ((along_lt_iff h d).2 hout)
        exact (hfits.after hpast).ge
    · rw [desktopBeyond_toInt h hin, desktopBeyond_toInt h hin']
      exact carried_mono hS.le hP (by omega) hpixel

/-- Where the picture is not shrunk, each of its pixels has a point. -/
theorem exists_reached (n : Axis → Int) (hn : ∀ d, shown.first d ≤ n d ∧ n d < shown.first d + shown.size d) :
    ∃ pos : Pos2, ∀ d, shown.size d ≤ l.pixels d →
      0 ≤ l.pixel d (pos d) ∧ l.pixel d (pos d) < l.pixels d ∧ (l.desktopAt pos d).toInt = n d := by
  have hex : ∀ d, ∃ a, shown.size d ≤ l.pixels d → 0 ≤ l.pixel d a ∧ l.pixel d a < l.pixels d ∧
      pinned (shown.size d) (l.pixels d) (l.pixel d a) = n d - shown.first d := fun d => by
    by_cases hd : shown.size d ≤ l.pixels d
    · have := hn d
      obtain ⟨q, h0, h1, hq⟩ := exists_pinned hd (show 0 ≤ n d - shown.first d by omega) (by omega)
      obtain ⟨a, rfl⟩ := exists_pixel h d q
      exact ⟨a, fun _ => ⟨h0, h1, hq⟩⟩
    · exact ⟨0, fun hle => absurd hle hd⟩
  choose pos hpos using hex
  refine ⟨pos, fun d hd => ⟨(hpos d hd).1, (hpos d hd).2.1, ?_⟩⟩
  rw [desktopAt_toInt h, (hpos d hd).2.2]
  omega

theorem matches_of_fits (hfits : ∀ d, l.Fits shown d) : l.Matches shown where
  names pos d := by
    have := pinned_mem (shown.size_pos d) (h.pixels_pos d) (l.pixel d (pos d))
    rw [desktopAt_toInt h]
    omega
  monotone pos pos' d hle := by
    rw [desktopAt_toInt h, desktopAt_toInt h]
    exact Int.add_le_add_left (pinned_mono (shown.size_pos d) (h.pixels_pos d) (pixel_mono h d hle)) _
  ends pos d := by
    rw [desktopAt_toInt h]
    refine ⟨fun hq => ?_, fun hq => ?_⟩
    · rw [hq, pinned_of_le le_rfl, add_zero]
    · rw [hq, (pinned_last_iff (h.pixels_pos d)).2 (hfits d).ends]
      omega
  reaches := exists_reached h
  shifts pos d hd h0 h1 := by
    rw [hd] at h1
    rw [desktopAt_toInt h, hd, pinned_self h0 h1]
  inside _ := desktopBeyond_inside
  crosses _ _ d := crosses_of_fits h (hfits d)
  beside pos d hin hout := beside_of_fits h (hfits d) hin fun hpos => hout ((Rect.contains_iff _ _ d).1 hpos).2

end

/-- A picture drawn on more than half of its size fits a window that it is not all beside. -/
theorem fits_of_lt {d : Axis} (hshrunk : shown.size d < 2 * l.pixels d) (hbefore : 0 ≤ l.pixel d (l.window.max d))
    (hafter : l.along d (l.window.min d) ≤ l.pixels d) : l.Fits shown d where
  ends hone := by
    have := shown.size_pos d
    omega
  first _ _ := hshrunk
  last _ _ := hshrunk.le
  before hneg := absurd hneg (not_lt.2 hbefore)
  after hpast := absurd hpast (not_lt.2 hafter)

/-! ## No other layout keeps it -/

section
variable (h : l.Drawn shown) (hwindow : ∀ d, l.window.min d ≤ l.window.max d) (hm : l.Matches shown) (d : Axis)
include h hwindow hm

omit h hm in
theorem contains_put_iff {a : ℚ} :
    l.window.contains (d.put a (l.window.min d.other)) ↔ l.window.min d ≤ a ∧ a ≤ l.window.max d := by
  rw [Rect.contains_iff _ _ d, d.put_self, d.put_other]
  exact and_iff_left ⟨le_rfl, hwindow d.other⟩

/-- Each end that is in the window has a point beside the window. -/
theorem ends_agree {q : Int} (hlo : l.pixel d (l.window.min d) ≤ q) (hhi : q ≤ l.pixel d (l.window.max d)) (h0 : 0 ≤ q)
    (h1 : q < l.pixels d) :
    (q = 0 → shown.size d < 2 * l.pixels d) ∧ (q = l.pixels d - 1 → shown.size d ≤ 2 * l.pixels d) := by
  obtain ⟨a, ha, ha', rfl⟩ := exists_pixel_between h d (hwindow d) hlo hhi
  let pos := d.put a (l.window.max d.other + 1)
  have hself : pos d = a := d.put_self _ _
  have hout : ¬ (l.window.min d.other ≤ pos d.other ∧ pos d.other ≤ l.window.max d.other) := by
    rw [show pos d.other = _ from d.put_other _ _]
    rintro ⟨-, hle⟩
    linarith
  have hagree := hm.beside pos d (by rw [hself]; exact ⟨ha, ha'⟩) hout (by rwa [hself]) (by rwa [hself])
  rw [beyond_eq_at_iff h (fun hpos => hout ((Rect.contains_iff _ _ d).1 hpos).2) (by rwa [hself]) (by rwa [hself]),
    hself] at hagree
  exact hagree

theorem before_of_matches (hhi : l.pixel d (l.window.max d) < 0) : shown.first d = 0 := by
  have hS := shown.size_pos d
  have hP := h.pixels_pos d
  have hfirst := shown.first_nonneg d
  have hfits := shown.fits d
  -- A point past the window's end, and still before the picture.
  have hneg : l.along d (l.window.max d) < 0 := by exact_mod_cast Int.floor_lt.1 hhi
  obtain ⟨a, ha⟩ := exists_along h d (l.along d (l.window.max d) / 2)
  have hpast : l.window.max d < a := by
    rw [← along_lt_iff h d, ha]
    linarith
  have hpixel : l.pixel d a < 0 := by
    rw [pixel, ha]
    exact Int.floor_lt.2 (by push_cast; linarith)
  have hin := (contains_put_iff hwindow d).2 ⟨hwindow d, le_rfl⟩
  have hout := mt (contains_put_iff hwindow d).1 fun hle => not_le.2 hpast hle.2
  have hcross := hm.crosses (d.put (l.window.max d) (l.window.min d.other)) (d.put a (l.window.min d.other)) d (by simp)
    (by simpa using hpast.le)
  rw [desktopBeyond_inside hin, desktopAt_toInt h, desktopBeyond_toInt h hout, d.put_self, d.put_self,
    pinned_of_le hhi.le] at hcross
  have hcentre := centre_neg hS hP hpixel
  have hclamp := clamp_cases (shown.first d + centre (shown.size d) (l.pixels d) (l.pixel d a)) 0 (desktop d - 1)
  unfold carried at hcross
  omega

theorem after_of_matches (hlo : l.pixels d < l.along d (l.window.min d)) :
    shown.first d + shown.size d = desktop d := by
  have hS := shown.size_pos d
  have hP := h.pixels_pos d
  have hfirst := shown.first_nonneg d
  have hfits := shown.fits d
  -- A point before the window's start, and already past the picture.
  obtain ⟨a, ha⟩ := exists_along h d (l.pixels d)
  have hbefore : a < l.window.min d := by rwa [← along_lt_iff h d, ha]
  have hpixel : l.pixel d a = l.pixels d := by rw [pixel, ha, Int.floor_intCast]
  have hin := (contains_put_iff hwindow d).2 ⟨le_rfl, hwindow d⟩
  have hout := mt (contains_put_iff hwindow d).1 fun hle => not_le.2 hbefore hle.1
  have hcross := hm.crosses (d.put a (l.window.min d.other)) (d.put (l.window.min d) (l.window.min d.other)) d (by simp)
    (by simpa using hbefore.le)
  rw [desktopBeyond_inside hin, desktopAt_toInt h, desktopBeyond_toInt h hout, d.put_self, d.put_self, hpixel] at hcross
  have hpinned := pinned_mem hS hP (l.pixel d (l.window.min d))
  have hcentre := le_centre hS hP (le_refl (l.pixels d))
  have hclamp := clamp_cases (shown.first d + centre (shown.size d) (l.pixels d) (l.pixels d)) 0 (desktop d - 1)
  unfold carried at hcross
  omega

theorem fits_of_matches : l.Fits shown d where
  ends hone := by
    have hP := h.pixels_pos d
    obtain ⟨a, ha⟩ := exists_pixel h d 0
    have hends := hm.ends (d.put a 0) d
    rw [d.put_self, ha] at hends
    have hfirst := hends.1 rfl
    have hlast := hends.2 (by omega)
    omega
  first hlo hhi := (ends_agree h hwindow hm d hlo hhi le_rfl (h.pixels_pos d)).1 rfl
  last hlo hhi := by
    have hP := h.pixels_pos d
    exact (ends_agree h hwindow hm d hlo hhi (by omega) (by omega)).2 rfl
  before := before_of_matches h hwindow hm d
  after := after_of_matches h hwindow hm d

end

end Layout

/-- What a picture promises the pointer is kept if and only if it fits. -/
theorem layout_matches_iff (v : View) (shown : Shown desktop) (window : Window) (pixelsPerPoint : ℚ)
    (h : ∀ d, 1 ≤ (v.layout shown.rect window.toRect pixelsPerPoint).1.rect.size d * pixelsPerPoint) :
    (v.layout shown.rect window.toRect pixelsPerPoint).1.Matches shown ↔
      ∀ d, (v.layout shown.rect window.toRect pixelsPerPoint).1.Fits shown d :=
  have hdrawn := v.layout_drawn window.toRect pixelsPerPoint h
  ⟨Layout.fits_of_matches hdrawn window.ordered, Layout.matches_of_fits hdrawn⟩

/-- Two monitors side by side. -/
def twoMonitors : Axis → Nat
  | .x => 2560
  | .y => 800

/-- The left one. -/
def leftMonitor : Shown twoMonitors where
  first := 0
  size
    | .x => 1280
    | .y => 800
  first_nonneg _ := le_rfl
  size_pos d := by cases d <;> decide
  fits d := by cases d <;> decide
  desktop_le d := by cases d <;> decide

/-- A window at the screen's corner. -/
def Window.sized (width height : Nat) : Window where
  min := 0
  max
    | .x => width
    | .y => height
  ordered d := by cases d <;> exact Nat.cast_nonneg _

/-- At three quarters of its size. -/
theorem matches_three_quarters :
    ((View.mk .fitWidth 0).layout leftMonitor.rect (Window.sized 960 600).toRect 1).1.Matches leftMonitor := by
  refine (layout_matches_iff (.mk .fitWidth 0) leftMonitor (.sized 960 600) 1 fun d => ?_).2 fun d => ?_
  · cases d <;> decide +kernel
  · apply Layout.fits_of_lt
    · cases d <;> decide +kernel
    · cases d <;> decide +kernel
    · cases d <;> decide +kernel

/-- At a quarter, a drag above the window is not over the column that the pointer was over in it. -/
theorem quarter_steps :
    let l := ((View.mk .fitWidth 0).layout leftMonitor.rect (Window.sized 320 200).toRect 1).1
    (∀ d, 1 ≤ l.rect.size d * 1) ∧ l.desktopAt (Axis.put .x 0 (-5)) .x = 0 ∧
      l.desktopBeyond (Axis.put .x 0 (-5)) twoMonitors .x = 2 ∧ ¬ l.Matches leftMonitor := by
  intro l
  have hat : l.desktopAt (Axis.put .x 0 (-5)) .x = 0 := by decide +kernel
  have hbeyond : l.desktopBeyond (Axis.put .x 0 (-5)) twoMonitors .x = 2 := by decide +kernel
  have hpixel : 0 ≤ l.pixel .x 0 ∧ l.pixel .x 0 < l.pixels .x := by decide +kernel
  refine ⟨fun d => by cases d <;> decide +kernel, hat, hbeyond, fun hm => ?_⟩
  have hagree := hm.beside (Axis.put .x 0 (-5)) .x ⟨le_rfl, Nat.cast_nonneg 320⟩
    (fun hy => absurd hy.1 (by decide)) hpixel.1 hpixel.2
  rw [hat, hbeyond] at hagree
  exact absurd hagree (by decide)

end Vento.Linux.Gui
