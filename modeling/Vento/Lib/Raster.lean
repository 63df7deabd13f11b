import Mathlib.Algebra.BigOperators.Ring.List
import Mathlib.Algebra.Ring.Nat
import Mathlib.Data.List.Basic
import Vento.Lib.Parse
/-!
# Slices and rasters

Checked slices, as a language with bounds checks has them: an operation on a
range gives `none` where the range does not lie in the list. Over them, rasters:
a `w × h` picture as the list of its rows, and what a write changes of it.

`Painted stride r pix out out'` says that a write put the picture `pix` into the
rectangle `r` and left the rest as it was; `Framed` is its second half alone.
`Rect.grid` cuts a picture into tiles, row by row.
-/

namespace Vento.Lib

variable {α : Type}

/-! ## Slices -/

/-- `xs[lo..hi]`. -/
def slice (xs : List α) (lo hi : Nat) : Option (List α) :=
  if lo ≤ hi ∧ hi ≤ xs.length then some ((xs.take hi).drop lo) else none

/-- `xs[lo..hi].copy_from_slice(src)`. -/
def copyFromSlice (xs : List α) (lo hi : Nat) (src : List α) : Option (List α) :=
  if lo ≤ hi ∧ hi ≤ xs.length ∧ src.length = hi - lo then some (xs.take lo ++ src ++ xs.drop hi) else none

/-- `xs[lo..hi].fill(a)`. -/
def fillSlice (xs : List α) (lo hi : Nat) (a : α) : Option (List α) :=
  copyFromSlice xs lo hi (List.replicate (hi - lo) a)

theorem slice_eq_some {xs ys : List α} {lo hi : Nat} :
    slice xs lo hi = some ys ↔ lo ≤ hi ∧ hi ≤ xs.length ∧ ys = (xs.take hi).drop lo := by
  unfold slice
  split <;> grind

theorem slice_length {xs ys : List α} {lo hi : Nat} (h : slice xs lo hi = some ys) : ys.length = hi - lo := by
  obtain ⟨-, h2, rfl⟩ := slice_eq_some.1 h
  simp only [List.length_drop, List.length_take]
  omega

theorem slice_getElem? {xs ys : List α} {lo hi i : Nat} (h : slice xs lo hi = some ys) (hi' : i < hi - lo) :
    ys[i]? = xs[lo + i]? := by
  obtain ⟨-, -, rfl⟩ := slice_eq_some.1 h
  rw [List.getElem?_drop, List.getElem?_take_of_lt (by omega)]

theorem copyFromSlice_eq_some {xs ys src : List α} {lo hi : Nat} :
    copyFromSlice xs lo hi src = some ys ↔
      lo ≤ hi ∧ hi ≤ xs.length ∧ src.length = hi - lo ∧ ys = xs.take lo ++ src ++ xs.drop hi := by
  unfold copyFromSlice
  split <;> grind

theorem copyFromSlice_length {xs ys src : List α} {lo hi : Nat} (h : copyFromSlice xs lo hi src = some ys) :
    ys.length = xs.length := by
  obtain ⟨h1, h2, h3, rfl⟩ := copyFromSlice_eq_some.1 h
  simp only [List.length_append, List.length_take, List.length_drop]
  omega

theorem copyFromSlice_getElem? {xs ys src : List α} {lo hi : Nat} (h : copyFromSlice xs lo hi src = some ys) (i : Nat) :
    ys[i]? = if lo ≤ i ∧ i < hi then src[i - lo]? else xs[i]? := by
  obtain ⟨h1, h2, h3, rfl⟩ := copyFromSlice_eq_some.1 h
  have hlo : (xs.take lo).length = lo := List.length_take_of_le (by omega)
  rw [List.append_assoc, List.getElem?_append, hlo, List.getElem?_append, h3]
  split
  · rw [if_neg (by omega), List.getElem?_take_of_lt (by omega)]
  · split
    · rw [if_pos (by omega)]
    · rw [if_neg (by omega), List.getElem?_drop]
      congr 1
      omega

/-- A slice that lies in its list can be copied to a range that lies in the
other. -/
theorem copy_slice_some {xs ys : List α} {lo hi lo' hi' : Nat} (h1 : lo ≤ hi) (h2 : hi ≤ ys.length) (h3 : lo' ≤ hi')
    (h4 : hi' ≤ xs.length) (h5 : hi - lo = hi' - lo') :
    ∃ zs, (do
      let src ← slice ys lo hi
      copyFromSlice xs lo' hi' src) = some zs ∧ zs.length = xs.length := by
  have hs : slice ys lo hi = some _ := slice_eq_some.2 ⟨h1, h2, rfl⟩
  have hc : copyFromSlice xs lo' hi' _ = some _ :=
    copyFromSlice_eq_some.2 ⟨h3, h4, (slice_length hs).trans h5, rfl⟩
  exact ⟨_, by rw [hs]; exact hc, copyFromSlice_length hc⟩

/-- Row writes in `Option` that keep a length. -/
theorem foldlM_length {ι : Type} {f : List α → ι → Option (List α)}
    (hf : ∀ xs i ys, f xs i = some ys → ys.length = xs.length) {is : List ι} {xs ys : List α}
    (h : is.foldlM f xs = some ys) : ys.length = xs.length := by
  induction is generalizing xs with
  | nil =>
    cases h
    rfl
  | cons i is ih =>
    rw [List.foldlM_cons] at h
    obtain ⟨zs, h1, h2⟩ := Option.bind_eq_some_iff.1 h
    rw [ih h2, hf xs i zs h1]

/-- Checked steps that succeed and keep `I` while it holds. -/
theorem foldlM_some {σ ι : Type} {f : σ → ι → Option σ} (I : σ → Prop) (is : List ι)
    (hf : ∀ s, ∀ i ∈ is, I s → ∃ s', f s i = some s' ∧ I s') {s : σ} (hs : I s) :
    ∃ s', is.foldlM f s = some s' ∧ I s' := by
  induction is generalizing s with
  | nil => exact ⟨s, rfl, hs⟩
  | cons i is ih =>
    obtain ⟨s', h1, h2⟩ := hf s i (by simp) hs
    obtain ⟨s'', h3, h4⟩ := ih (fun s j hj => hf s j (by simp [hj])) h2
    exact ⟨s'', by rw [List.foldlM_cons, h1]; exact h3, h4⟩

/-- Checked results for every element. -/
theorem mapM_some {ι β : Type} {f : ι → Option β} (P : β → Prop) (is : List ι) (hf : ∀ i ∈ is, ∃ b, f i = some b ∧ P b) :
    ∃ bs, is.mapM f = some bs ∧ bs.length = is.length ∧ ∀ b ∈ bs, P b := by
  induction is with
  | nil => exact ⟨[], rfl, rfl, fun b hb => by cases hb⟩
  | cons i is ih =>
    obtain ⟨b, hb, hP⟩ := hf i (by simp)
    obtain ⟨bs, hbs, hlen, hPs⟩ := ih fun j hj => hf j (by simp [hj])
    refine ⟨b :: bs, ?_, by simp [hlen], ?_⟩
    · simp [List.mapM_cons, hb, hbs]
    · intro b' hb'
      rcases List.mem_cons.1 hb' with rfl | hb'
      · exact hP
      · exact hPs b' hb'

/-- Checked results that are all there. -/
theorem mapM_eq_map {ι β : Type} {f : ι → Option β} {g : ι → β} {is : List ι} (h : ∀ i ∈ is, f i = some (g i)) :
    is.mapM f = some (is.map g) := by
  induction is with
  | nil => rfl
  | cons i is ih =>
    rw [List.mapM_cons, h i List.mem_cons_self, ih fun j hj => h j (List.mem_cons_of_mem _ hj)]
    rfl

theorem ite_bind {α β : Type} (p : Prop) [Decidable p] (a : α) (f : α → Option β) :
    ((if p then some a else none) >>= f) = if p then f a else none := by
  split
  · rfl
  · rfl

theorem mapM_congr {ι β : Type} {f g : ι → Option β} {is : List ι} (h : ∀ i ∈ is, f i = g i) : is.mapM f = is.mapM g := by
  induction is with
  | nil => rfl
  | cons i is ih =>
    rw [List.mapM_cons, List.mapM_cons, h i List.mem_cons_self, ih fun j hj => h j (List.mem_cons_of_mem _ hj)]

/-- Checks of every element, with what they compute. -/
theorem mapM_ite {ι β : Type} {p : ι → Prop} [DecidablePred p] (g : ι → β) (is : List ι) :
    (is.mapM fun i => if p i then some (g i) else none) = if ∀ i ∈ is, p i then some (is.map g) else none := by
  induction is with
  | nil => rfl
  | cons i is ih =>
    rw [List.mapM_cons, ih]
    by_cases hi : p i
    · by_cases his : ∀ j ∈ is, p j
      · rw [if_pos hi, if_pos his, if_pos (List.forall_mem_cons.2 ⟨hi, his⟩)]
        rfl
      · rw [if_pos hi, if_neg his, if_neg fun h => his (List.forall_mem_cons.1 h).2]
        rfl
    · rw [if_neg hi, if_neg fun h => hi (List.forall_mem_cons.1 h).1]
      rfl

/-- A raster's places, row by row. -/
theorem map_range_mul {β : Type} (w h : Nat) (f : Nat → β) :
    (List.range (h * w)).map f = (List.range h).flatMap fun y => (List.range w).map fun x => f (y * w + x) := by
  induction h with
  | zero => simp
  | succ h ih =>
    rw [Nat.succ_mul, List.range_add, List.map_append, ih, List.range_succ, List.flatMap_append, List.flatMap_singleton,
      List.map_map]
    rfl

/-- A piece of a list that is made of pieces of one length. -/
theorem slice_flatten {n k : Nat} {xss : List (List α)} (h : ∀ xs ∈ xss, xs.length = n) (hk : k < xss.length) :
    slice xss.flatten (k * n) (k * n + n) = some xss[k] := by
  induction xss generalizing k with
  | nil => exact absurd hk (Nat.not_lt_zero k)
  | cons xs xss ih =>
    have hxs := h xs List.mem_cons_self
    cases k with
    | zero => exact slice_eq_some.2 ⟨by omega, by simp; omega, by simp [hxs]⟩
    | succ k =>
      obtain ⟨-, hle, heq⟩ := slice_eq_some.1 (ih (fun ys hy => h ys (List.mem_cons_of_mem _ hy)) (Nat.lt_of_succ_lt_succ hk))
      refine slice_eq_some.2 ⟨by omega, ?_, ?_⟩
      · rw [List.flatten_cons, List.length_append, hxs, Nat.succ_mul]
        omega
      · rw [List.getElem_cons_succ, heq, List.flatten_cons, Nat.succ_mul,
          show k * n + n + n = xs.length + (k * n + n) by omega, List.take_length_add_append,
          show k * n + n = xs.length + k * n by omega, List.drop_length_add_append]

/-! ## Rectangles of a raster -/

structure Rect where
  x : Nat
  y : Nat
  w : Nat
  h : Nat
deriving DecidableEq, Repr

namespace Rect

def Mem (r : Rect) (x y : Nat) : Prop := r.x ≤ x ∧ x < r.x + r.w ∧ r.y ≤ y ∧ y < r.y + r.h

instance (r : Rect) (x y : Nat) : Decidable (r.Mem x y) := inferInstanceAs (Decidable (_ ∧ _))

/-- `r` lies in a `w × h` picture. -/
def Inside (r : Rect) (w h : Nat) : Prop := r.x + r.w ≤ w ∧ r.y + r.h ≤ h

instance (r : Rect) (w h : Nat) : Decidable (r.Inside w h) := inferInstanceAs (Decidable (_ ∧ _))

theorem Inside.lt_of_mem {r : Rect} {w h x y : Nat} (hr : r.Inside w h) (hm : r.Mem x y) : x < w :=
  Nat.lt_of_lt_of_le hm.2.1 hr.1

end Rect

theorem index_lt {w h x y : Nat} (hx : x < w) (hy : y < h) : y * w + x < w * h := by
  have : (y + 1) * w ≤ h * w := Nat.mul_le_mul_right w hy
  rw [Nat.succ_mul, Nat.mul_comm h w] at this
  omega

/-- The `w × h` picture `pix`, row by row. -/
def raster (w h : Nat) (pix : Nat → Nat → α) : List α :=
  (List.range h).flatMap fun y => (List.range w).map fun x => pix x y

theorem raster_succ (w h : Nat) (pix : Nat → Nat → α) :
    raster w (h + 1) pix = raster w h pix ++ (List.range w).map fun x => pix x h := by
  simp [raster, List.range_succ, List.flatMap_append]

@[simp]
theorem raster_length (w h : Nat) (pix : Nat → Nat → α) : (raster w h pix).length = w * h := by
  induction h with
  | zero => simp [raster]
  | succ h ih => simp [raster_succ, ih, Nat.mul_succ]

theorem raster_getElem? {w h x y : Nat} (pix : Nat → Nat → α) (hx : x < w) (hy : y < h) :
    (raster w h pix)[y * w + x]? = some (pix x y) := by
  induction h with
  | zero => omega
  | succ h ih =>
    rw [raster_succ, List.getElem?_append, raster_length]
    by_cases hlt : y < h
    · rw [if_pos (index_lt hx hlt), ih hlt]
    · obtain rfl : y = h := by omega
      have hidx : y * w + x - w * y = x := by rw [Nat.mul_comm w y]; omega
      rw [if_neg (by rw [Nat.mul_comm w y]; omega), hidx]
      simp [hx]

/-- A picture is its pixels. -/
theorem eq_raster {w h : Nat} {out : List α} {pix : Nat → Nat → α} (hlen : out.length = w * h)
    (hpix : ∀ x y, x < w → y < h → out[y * w + x]? = some (pix x y)) : out = raster w h pix := by
  apply List.ext_getElem?
  intro i
  by_cases hi : i < w * h
  · have hw : 0 < w := Nat.pos_of_ne_zero fun h0 => by simp [h0] at hi
    have hx : i % w < w := Nat.mod_lt i hw
    have hy : i / w < h := Nat.div_lt_of_lt_mul hi
    have hidx : i / w * w + i % w = i := Nat.div_add_mod' i w
    rw [← hidx, hpix _ _ hx hy, raster_getElem? pix hx hy]
  · rw [List.getElem?_eq_none (by omega), List.getElem?_eq_none (by simp; omega)]

theorem eq_raster_getD {w h : Nat} (out : List α) (a : α) (hlen : out.length = w * h) :
    out = raster w h fun x y => out.getD (y * w + x) a := by
  apply eq_raster hlen
  intro x y hx hy
  have hidx : y * w + x < out.length := hlen ▸ index_lt hx hy
  rw [List.getD_eq_getElem?_getD, List.getElem?_eq_getElem hidx]
  rfl

/-! ## Writes -/

/-- A write put `pix` into `r` and left the rest as it was. -/
structure Painted (stride : Nat) (r : Rect) (pix : Nat → Nat → α) (out out' : List α) : Prop where
  length : out'.length = out.length
  pixel : ∀ x y, x < stride → out'[y * stride + x]? = if r.Mem x y then some (pix x y) else out[y * stride + x]?

/-- A write left everything outside `r` as it was. -/
structure Framed (stride : Nat) (r : Rect) (out out' : List α) : Prop where
  length : out'.length = out.length
  pixel : ∀ x y, x < stride → ¬ r.Mem x y → out'[y * stride + x]? = out[y * stride + x]?

namespace Framed

variable {stride : Nat} {r r' : Rect} {out out' out'' : List α}

theorem trans (h : Framed stride r out out') (h' : Framed stride r out' out'') : Framed stride r out out'' :=
  ⟨h'.length.trans h.length, fun x y hx hm => (h'.pixel x y hx hm).trans (h.pixel x y hx hm)⟩

theorem mono (h : Framed stride r out out') (hsub : ∀ x y, r.Mem x y → r'.Mem x y) : Framed stride r' out out' :=
  ⟨h.length, fun x y hx hm => h.pixel x y hx fun hr => hm (hsub x y hr)⟩

/-- Steps that stay in the rectangle each, in any order. -/
theorem foldlM {ι : Type} {f : List α → ι → Option (List α)} (is : List ι) (out : List α)
    (hf : ∀ i ∈ is, ∀ o : List α, o.length = out.length → ∃ o', f o i = some o' ∧ Framed stride r o o') :
    ∃ out', is.foldlM f out = some out' ∧ Framed stride r out out' := by
  refine foldlM_some (fun o => Framed stride r out o) is ?_ ⟨rfl, fun _ _ _ _ => rfl⟩
  intro o i hi ho
  obtain ⟨o', hstep, hframed⟩ := hf i hi o ho.length
  exact ⟨o', hstep, ho.trans hframed⟩

end Framed

namespace Painted

variable {stride : Nat} {r r' : Rect} {pix pix' : Nat → Nat → α} {out out' out'' : List α}

theorem framed (h : Painted stride r pix out out') : Framed stride r out out' :=
  ⟨h.length, fun x y hx hm => by rw [h.pixel x y hx, if_neg hm]⟩

theorem congr (h : Painted stride r pix out out') (heq : ∀ x y, r.Mem x y → pix x y = pix' x y) :
    Painted stride r pix' out out' := by
  refine ⟨h.length, fun x y hx => ?_⟩
  rw [h.pixel x y hx]
  split
  · rw [heq x y ‹_›]
  · rfl

/-- A second write into the same rectangle. -/
theorem overlay (h : Painted stride r pix out out') (h' : Painted stride r' pix' out' out'')
    (hsub : ∀ x y, r'.Mem x y → r.Mem x y) :
    Painted stride r (fun x y => if r'.Mem x y then pix' x y else pix x y) out out'' := by
  refine ⟨h'.length.trans h.length, fun x y hx => ?_⟩
  rw [h'.pixel x y hx, h.pixel x y hx]
  by_cases hr' : r'.Mem x y
  · simp [hr', hsub x y hr']
  · simp [hr']

/-- The pixels of a row are next to each other. -/
theorem mem_row_iff {x y w px py : Nat} (hw : x + w ≤ stride) (hp : px < stride) :
    (y * stride + x ≤ py * stride + px ∧ py * stride + px < y * stride + x + w) ↔
      (⟨x, y, w, 1⟩ : Rect).Mem px py := by
  simp only [Rect.Mem]
  rcases Nat.lt_trichotomy py y with hlt | rfl | hlt
  · have : (py + 1) * stride ≤ y * stride := Nat.mul_le_mul_right stride hlt
    rw [Nat.succ_mul] at this
    omega
  · omega
  · have : (y + 1) * stride ≤ py * stride := Nat.mul_le_mul_right stride hlt
    rw [Nat.succ_mul] at this
    omega

theorem row {x y w : Nat} {src : List α} (hw : x + w ≤ stride)
    (hsrc : ∀ i, i < w → src[i]? = some (pix (x + i) y))
    (h : copyFromSlice out (y * stride + x) (y * stride + x + w) src = some out') :
    Painted stride ⟨x, y, w, 1⟩ pix out out' := by
  refine ⟨copyFromSlice_length h, fun px py hp => ?_⟩
  rw [copyFromSlice_getElem? h]
  by_cases hm : (⟨x, y, w, 1⟩ : Rect).Mem px py
  · rw [if_pos ((mem_row_iff hw hp).2 hm), if_pos hm]
    obtain ⟨h1, h2, h3, h4⟩ := hm
    simp only at h1 h2 h3 h4
    obtain rfl : py = y := by omega
    rw [show py * stride + px - (py * stride + x) = px - x by omega, hsrc (px - x) (by omega)]
    rw [show x + (px - x) = px by omega]
  · rw [if_neg (fun hc => hm ((mem_row_iff hw hp).1 hc)), if_neg hm]

/-- A write row by row, each row from what the rows above left. -/
theorem rows {x y w h : Nat} {f : List α → Nat → Option (List α)} (out : List α)
    (hf : ∀ row, row < h → ∀ o : List α, o.length = out.length →
      ∃ o', f o row = some o' ∧ Painted stride ⟨x, y + row, w, 1⟩ pix o o') :
    ∃ out', (List.range h).foldlM f out = some out' ∧ Painted stride ⟨x, y, w, h⟩ pix out out' := by
  induction h with
  | zero =>
    refine ⟨out, rfl, rfl, fun px py _ => ?_⟩
    rw [if_neg]
    simp only [Rect.Mem]
    omega
  | succ h ih =>
    obtain ⟨o, ho, hp⟩ := ih fun row hrow => hf row (by omega)
    obtain ⟨o', ho', hp'⟩ := hf h (by omega) o hp.length
    refine ⟨o', by simp [List.range_succ, List.foldlM_append, ho, ho'], hp'.length.trans hp.length, fun px py hpx => ?_⟩
    rw [hp'.pixel px py hpx, hp.pixel px py hpx]
    have hsplit : (⟨x, y, w, h + 1⟩ : Rect).Mem px py ↔
        (⟨x, y + h, w, 1⟩ : Rect).Mem px py ∨ (⟨x, y, w, h⟩ : Rect).Mem px py := by
      simp only [Rect.Mem]
      omega
    by_cases hlast : (⟨x, y + h, w, 1⟩ : Rect).Mem px py <;> simp [hsplit, hlast]

end Painted

/-- A row of a rectangle inside the picture lies in the list. -/
theorem row_le {w h x y n row : Nat} (hx : x + n ≤ w) (hrow : y + row < h) : (y + row) * w + x + n ≤ w * h := by
  have : (y + row + 1) * w ≤ h * w := Nat.mul_le_mul_right w hrow
  rw [Nat.succ_mul, Nat.mul_comm h w] at this
  omega

/-- So does the start of a row. -/
theorem stripe_le {w h n row : Nat} (hn : n ≤ w) (hrow : row < h) : row * w + n ≤ w * h := by
  have hle := @row_le w h 0 0 n row (by omega) (by omega)
  rwa [Nat.zero_add, Nat.add_zero] at hle

/-- Filling the rows of a rectangle. -/
theorem painted_fill {w h : Nat} {r : Rect} (hr : r.Inside w h) (a : α) {out : List α} (hlen : out.length = w * h) :
    ∃ out', (List.range r.h).foldlM (fun out row =>
        fillSlice out ((r.y + row) * w + r.x) ((r.y + row) * w + r.x + r.w) a) out = some out' ∧
      Painted w r (fun _ _ => a) out out' := by
  apply Painted.rows
  intro row hrow o ho
  obtain ⟨h1, h2⟩ := hr
  have hle := row_le h1 (by omega : r.y + row < h)
  refine ⟨_, copyFromSlice_eq_some.2 ⟨by omega, by omega, by simp, rfl⟩, ?_⟩
  apply Painted.row h1 _ (copyFromSlice_eq_some.2 ⟨by omega, by omega, by simp, rfl⟩)
  intro i hi
  rw [List.getElem?_replicate_of_lt (by omega)]

/-- Copying a picture into a rectangle, row by row. -/
theorem painted_blit {w h : Nat} {r : Rect} (hr : r.Inside w h) (pix : Nat → Nat → α) {out : List α}
    (hlen : out.length = w * h) :
    ∃ out', (List.range r.h).foldlM (fun out row => do
        let src ← slice (raster r.w r.h pix) (row * r.w) (row * r.w + r.w)
        copyFromSlice out ((r.y + row) * w + r.x) ((r.y + row) * w + r.x + r.w) src) out = some out' ∧
      Painted w r (fun x y => pix (x - r.x) (y - r.y)) out out' := by
  apply Painted.rows
  intro row hrow o ho
  obtain ⟨h1, h2⟩ := hr
  have hle := row_le h1 (by omega : r.y + row < h)
  have hsrc : row * r.w + r.w ≤ r.w * r.h := stripe_le (Nat.le_refl _) hrow
  have hs : slice (raster r.w r.h pix) (row * r.w) (row * r.w + r.w) = some _ :=
    slice_eq_some.2 ⟨by omega, by simpa using hsrc, rfl⟩
  have hlen' := slice_length hs
  rw [hs]
  refine ⟨_, copyFromSlice_eq_some.2 ⟨by omega, by omega, by omega, rfl⟩, ?_⟩
  apply Painted.row h1 _ (copyFromSlice_eq_some.2 ⟨by omega, by omega, by omega, rfl⟩)
  intro i hi
  rw [slice_getElem? hs (by omega), raster_getElem? pix hi hrow]
  congr 2 <;> omega

/-! ## Tiles -/

/-- `(0..n).step_by(side)`. -/
def steps (n side : Nat) : List Nat := (List.range ((n + side - 1) / side)).map (· * side)

/-- The tiles of a `w × h` picture, row by row, the last ones of a row or a
column cut to what is left. -/
def Rect.grid (w h side : Nat) : List Rect :=
  (steps h side).flatMap fun ty => (steps w side).map fun tx => ⟨tx, ty, min side (w - tx), min side (h - ty)⟩

theorem mem_steps {n side t : Nat} (hs : 0 < side) : t ∈ steps n side ↔ t < n ∧ side ∣ t := by
  simp only [steps, List.mem_map, List.mem_range]
  constructor
  · rintro ⟨k, hk, rfl⟩
    refine ⟨?_, Nat.dvd_mul_left side k⟩
    have := (Nat.le_div_iff_mul_le hs).1 (Nat.succ_le_of_lt hk)
    rw [Nat.succ_mul] at this
    omega
  · rintro ⟨hlt, k, rfl⟩
    refine ⟨k, ?_, Nat.mul_comm k side⟩
    apply (Nat.le_div_iff_mul_le hs).2
    rw [Nat.succ_mul, Nat.mul_comm k side]
    omega

namespace Rect

theorem mem_grid {w h side : Nat} (hs : 0 < side) {t : Rect} : t ∈ grid w h side ↔
    (t.x < w ∧ side ∣ t.x) ∧ (t.y < h ∧ side ∣ t.y) ∧ t.w = min side (w - t.x) ∧ t.h = min side (h - t.y) := by
  simp only [grid, List.mem_flatMap, List.mem_map, mem_steps hs]
  constructor
  · rintro ⟨ty, hy, tx, hx, rfl⟩
    exact ⟨hx, hy, rfl, rfl⟩
  · rintro ⟨hx, hy, hw, hh⟩
    exact ⟨t.y, hy, t.x, hx, by cases t; simp_all⟩

theorem grid_inside {w h side : Nat} (hs : 0 < side) {t : Rect} (ht : t ∈ grid w h side) : t.Inside w h := by
  obtain ⟨⟨h1, -⟩, ⟨h2, -⟩, h3, h4⟩ := (mem_grid hs).1 ht
  constructor <;> omega

/-- Every pixel is in a tile. -/
theorem grid_cover {w h side x y : Nat} (hs : 0 < side) (hx : x < w) (hy : y < h) :
    ∃ t ∈ grid w h side, t.Mem x y := by
  have hx' := Nat.div_mul_le_self x side
  have hy' := Nat.div_mul_le_self y side
  have hx'' := Nat.mod_lt x hs
  have hy'' := Nat.mod_lt y hs
  have ex := Nat.div_add_mod' x side
  have ey := Nat.div_add_mod' y side
  refine ⟨⟨x / side * side, y / side * side, min side (w - x / side * side), min side (h - y / side * side)⟩,
    (mem_grid hs).2 ⟨⟨?_, ?_⟩, ⟨?_, ?_⟩, rfl, rfl⟩, ?_⟩
  · exact Nat.lt_of_le_of_lt hx' hx
  · exact Nat.dvd_mul_left side _
  · exact Nat.lt_of_le_of_lt hy' hy
  · exact Nat.dvd_mul_left side _
  · simp only [Mem]
    omega

theorem steps_sorted (n side : Nat) : (steps n side).Pairwise (fun s t => s + side ≤ t) := by
  rw [steps, List.pairwise_map]
  refine List.pairwise_lt_range.imp fun {i j} hij => ?_
  rw [← Nat.succ_mul]
  exact Nat.mul_le_mul_right side hij

/-- No pixel is in two tiles. -/
theorem grid_disjoint (w h side : Nat) :
    (grid w h side).Pairwise fun t t' => ∀ x y, t.Mem x y → ¬ t'.Mem x y := by
  rw [grid, List.pairwise_flatMap]
  constructor
  · intro ty _
    rw [List.pairwise_map]
    refine (steps_sorted _ side).imp fun {tx tx'} hle x y hm hm' => ?_
    simp only [Mem] at hm hm'
    omega
  · refine (steps_sorted _ side).imp fun {ty ty'} hle t ht t' ht' x y hm hm' => ?_
    obtain ⟨tx, -, rfl⟩ := List.mem_map.1 ht
    obtain ⟨tx', -, rfl⟩ := List.mem_map.1 ht'
    simp only [Mem] at hm hm'
    omega

theorem steps_length (n : Nat) {side : Nat} : (steps n side).length = (n + side - 1) / side := by
  simp [steps]

/-- The tiles of a row have its width together. -/
theorem sum_steps {n side : Nat} (hs : 0 < side) : ((steps n side).map fun t => min side (n - t)).sum = n := by
  have h : ∀ k, ((List.range k).map fun i => min side (n - i * side)).sum = min n (k * side) := by
    intro k
    induction k with
    | zero => simp
    | succ k ih =>
      rw [List.range_succ, List.map_append, List.sum_append, ih, Nat.succ_mul]
      simp only [List.map_cons, List.map_nil, List.sum_singleton]
      omega
  have hk : n ≤ (n + side - 1) / side * side := by
    have := Nat.div_add_mod' (n + side - 1) side
    have := Nat.mod_lt (n + side - 1) hs
    omega
  rw [steps, List.map_map]
  exact (h _).trans (Nat.min_eq_left hk)

/-- The tiles have the picture's area together. -/
theorem sum_area_grid {w h side : Nat} (hs : 0 < side) : ((grid w h side).map fun t => t.w * t.h).sum = w * h := by
  have hrows : ∀ ys : List Nat, ((ys.flatMap fun ty => (steps w side).map fun tx =>
      (⟨tx, ty, min side (w - tx), min side (h - ty)⟩ : Rect)).map fun t => t.w * t.h).sum =
      w * (ys.map fun ty => min side (h - ty)).sum := by
    intro ys
    induction ys with
    | nil => simp
    | cons ty ys ih =>
      rw [List.flatMap_cons, List.map_append, List.sum_append, ih, List.map_map, List.map_cons, List.sum_cons,
        Nat.mul_add]
      congr 1
      calc ((steps w side).map fun tx => min side (w - tx) * min side (h - ty)).sum
          = ((steps w side).map fun tx => min side (w - tx)).sum * min side (h - ty) :=
            List.sum_map_mul_right _ (fun tx => min side (w - tx)) _
        _ = w * min side (h - ty) := by rw [sum_steps hs]
  rw [grid, hrows, sum_steps hs]

theorem grid_length (w h side : Nat) : (grid w h side).length = (steps w side).length * (steps h side).length := by
  unfold grid
  induction steps h side with
  | nil => rfl
  | cons ty ys ih =>
    rw [List.flatMap_cons, List.length_append, List.length_map, ih, List.length_cons, Nat.mul_succ, Nat.add_comm]

end Rect

/-- A picture read tile by tile, each tile painted where it belongs. `J` is what
else the rounds keep. -/
theorem parses_tiles {ε τ σ ρ : Type} {w h side : Nat} (hside : 0 < side) (pix : Nat → Nat → α)
    {R : ρ → Rect → List τ → ρ → Prop} {f : σ → Rect → Parser ε τ σ} (canvas : σ → List α) (J : ρ → σ → Prop)
    {a b : ρ} {bs : List τ} (hc : Parser.Chain R a (Rect.grid w h side) bs b)
    (hstep : ∀ t ∈ Rect.grid w h side, ∀ a bs b s, (canvas s).length = w * h → J a s → R a t bs b →
      ∃ s', (f s t).Parses bs s' ∧ Painted w t pix (canvas s) (canvas s') ∧ J b s')
    {s : σ} (hs : (canvas s).length = w * h) (hJ : J a s) :
    ∃ s', ((Rect.grid w h side).foldlM f s).Parses bs s' ∧ canvas s' = raster w h pix := by
  -- a tile shows the picture once it is painted, whatever the tiles after it do
  obtain ⟨s', hp, hlen, -, hshown⟩ := hc.parses (f := f)
    (fun done a s => (canvas s).length = w * h ∧ J a s ∧
      ∀ x y, x < w → (∃ t ∈ done, t.Mem x y) → (canvas s)[y * w + x]? = some (pix x y))
    (by
      rintro done t ht a bs b s ⟨hlen, hJ, hshown⟩ hr
      obtain ⟨s', hp, hp', hJ'⟩ := hstep t ht a bs b s hlen hJ hr
      refine ⟨s', hp, hp'.length.trans hlen, hJ', fun x y hx hmem => ?_⟩
      rw [hp'.pixel x y hx]
      split
      · rfl
      · obtain ⟨t', ht', hm⟩ := hmem
        rcases List.mem_append.1 ht' with hdone | hlast
        · exact hshown x y hx ⟨t', hdone, hm⟩
        · rw [List.mem_singleton.1 hlast] at hm
          contradiction)
    [] ⟨hs, hJ, by simp⟩
  exact ⟨s', hp, eq_raster hlen fun x y hx hy => hshown x y hx (by simpa using Rect.grid_cover hside hx hy)⟩

/-! ## Rectangles copied within a raster -/

/-- `after` is `before` with a rectangle copied from `sx`, `sy` to `dx`, `dy`, as far as both lie in the picture: every
pixel of it is what its source was before. -/
structure Copied (width height sx sy dx dy w h : Nat) (before after : List α) : Prop where
  length : after.length = before.length
  pixel : ∀ x y, x < width → y < height → after[y * width + x]? =
    if (⟨dx, dy, w, h⟩ : Rect).Mem x y ∧ x - dx + sx < width ∧ y - dy + sy < height then
      before[(y - dy + sy) * width + (x - dx + sx)]?
    else before[y * width + x]?

/-- One row, which is read before it is written. -/
theorem copyRow {stride height sx sy dx dy w : Nat} {o : List α} (hlen : o.length = stride * height) (hsx : sx + w ≤ stride)
    (hdx : dx + w ≤ stride) (hsy : sy < height) (hdy : dy < height) :
    ∃ o', (slice o (sy * stride + sx) (sy * stride + sx + w)).bind
        (copyFromSlice o (dy * stride + dx) (dy * stride + dx + (sy * stride + sx + w - (sy * stride + sx)))) = some o' ∧
      o'.length = o.length ∧ ∀ x y, x < stride → o'[y * stride + x]? =
        if y = dy ∧ dx ≤ x ∧ x < dx + w then o[sy * stride + (x - dx + sx)]? else o[y * stride + x]? := by
  have hsrc : (sy + 0) * stride + sx + w ≤ stride * height := row_le hsx hsy
  have hdst : (dy + 0) * stride + dx + w ≤ stride * height := row_le hdx hdy
  rw [Nat.add_zero] at hsrc hdst
  rw [Nat.add_sub_cancel_left]
  have hslice := slice_eq_some.2 ⟨Nat.le_add_right (sy * stride + sx) w, hlen ▸ hsrc, rfl⟩
  have hwide := slice_length hslice
  rw [Nat.add_sub_cancel_left] at hwide
  obtain ⟨o', hcopy⟩ : ∃ o', copyFromSlice o (dy * stride + dx) (dy * stride + dx + w)
      ((o.take (sy * stride + sx + w)).drop (sy * stride + sx)) = some o' :=
    ⟨_, copyFromSlice_eq_some.2 ⟨by omega, by omega, by omega, rfl⟩⟩
  refine ⟨o', ?_, copyFromSlice_length hcopy, ?_⟩
  · rw [hslice, Option.bind_some, hcopy]
  · intro x y hx
    rw [copyFromSlice_getElem? hcopy]
    have hmem := @Painted.mem_row_iff stride dx dy w x y hdx hx
    simp only [Rect.Mem] at hmem
    by_cases hin : y = dy ∧ dx ≤ x ∧ x < dx + w
    · rw [if_pos hin, if_pos (hmem.2 (by omega))]
      obtain ⟨rfl, hlo, hhi⟩ := hin
      rw [slice_getElem? hslice (by omega)]
      congr 1
      omega
    · rw [if_neg hin, if_neg fun h => hin (by have := hmem.1 h; omega)]

/-- Rows in an order in which none is written before it is read. -/
theorem copyRows (sx dx w : Nat) {stride height sy dy h : Nat} (hsx : sx + w ≤ stride) (hdx : dx + w ≤ stride) (hsy : sy + h ≤ height)
    (hdy : dy + h ≤ height) (rows : List Nat) (hrows : ∀ row ∈ rows, row < h)
    (horder : rows.Pairwise fun i j => dy + i ≠ sy + j) {o : List α} (hlen : o.length = stride * height) :
    ∃ o', rows.foldlM (fun o row => (slice o ((sy + row) * stride + sx) ((sy + row) * stride + sx + w)).bind
        (copyFromSlice o ((dy + row) * stride + dx)
          ((dy + row) * stride + dx + ((sy + row) * stride + sx + w - ((sy + row) * stride + sx))))) o = some o' ∧
      o'.length = o.length ∧ ∀ x y, x < stride → o'[y * stride + x]? =
        if (∃ row ∈ rows, y = dy + row) ∧ dx ≤ x ∧ x < dx + w then o[(y - dy + sy) * stride + (x - dx + sx)]?
        else o[y * stride + x]? := by
  induction rows generalizing o with
  | nil => exact ⟨o, rfl, rfl, fun x y _ => by simp⟩
  | cons row rows ih =>
    rw [List.forall_mem_cons] at hrows
    rw [List.pairwise_cons] at horder
    obtain ⟨o₁, hrow, hlen₁, hpixel₁⟩ := copyRow hlen hsx hdx (show sy + row < height by omega) (show dy + row < height by omega)
    obtain ⟨o', hrest, hlen', hpixel⟩ := ih hrows.2 horder.2 (hlen₁.trans hlen)
    refine ⟨o', ?_, hlen'.trans hlen₁, ?_⟩
    · rw [List.foldlM_cons, hrow]
      exact hrest
    · intro x y hx
      rw [hpixel x y hx]
      by_cases hin : dx ≤ x ∧ x < dx + w
      · by_cases hlater : ∃ row' ∈ rows, y = dy + row'
        · obtain ⟨row', hmem, rfl⟩ := hlater
          have hne := horder.1 row' hmem
          rw [if_pos ⟨⟨row', hmem, rfl⟩, hin⟩, if_pos ⟨⟨row', List.mem_cons_of_mem row hmem, rfl⟩, hin⟩,
            hpixel₁ _ _ (show x - dx + sx < stride by omega), if_neg]
          omega
        · rw [if_neg fun h => hlater h.1, hpixel₁ x y hx]
          by_cases hy : y = dy + row
          · have hrow' : y - dy + sy = sy + row := by omega
            rw [if_pos ⟨hy, hin⟩, if_pos ⟨⟨row, List.mem_cons_self, hy⟩, hin⟩, hrow']
          · rw [if_neg fun h => hy h.1, if_neg]
            rintro ⟨⟨row', hmem, hy'⟩, -⟩
            rcases List.mem_cons.1 hmem with rfl | hmem
            · exact hy hy'
            · exact hlater ⟨row', hmem, hy'⟩
      · rw [if_neg fun h => hin h.2, if_neg fun h => hin h.2, hpixel₁ x y hx, if_neg fun h => hin h.2]

/-- As much of a side as lies in the picture, from the one start and from the other. -/
theorem min_sub_iff {w width sx dx w' k : Nat} (hw : min (min w (width - sx)) (width - dx) = w') :
    k < w' ↔ k < w ∧ sx + k < width ∧ dx + k < width := by
  rw [← hw, Nat.lt_min, Nat.lt_min, Nat.lt_sub_iff_add_lt', Nat.lt_sub_iff_add_lt', and_assoc]

/-- A rectangle of which nothing lies in the picture has no pixel that is copied. -/
theorem not_mem_of_empty {sx sy dx dy w h width height w' h' x y : Nat} (hw : min (min w (width - sx)) (width - dx) = w')
    (hh : min (min h (height - sy)) (height - dy) = h') (hnone : w' = 0 ∨ h' = 0) (hx : x < width) (hy : y < height) :
    ¬((⟨dx, dy, w, h⟩ : Rect).Mem x y ∧ x - dx + sx < width ∧ y - dy + sy < height) := by
  have hacross := @min_sub_iff w width sx dx w' (x - dx) hw
  have hdown := @min_sub_iff h height sy dy h' (y - dy) hh
  clear hw hh
  simp only [Rect.Mem]
  rintro ⟨⟨hx0, hxw, hy0, hyh⟩, hsx, hsy⟩
  have hin := hacross.2 ⟨by omega, by omega, by omega⟩
  have hin' := hdown.2 ⟨by omega, by omega, by omega⟩
  omega

/-- The rows of a rectangle, from the bottom if it is copied downwards and from the top otherwise. -/
theorem copied_rows (sx sy dx dy w h : Nat) {width height : Nat} {o : List α} (hlen : o.length = width * height) {w' h' : Nat}
    (hw : min (min w (width - sx)) (width - dx) = w') (hh : min (min h (height - sy)) (height - dy) = h') (hw' : w' ≠ 0) (hh' : h' ≠ 0) :
    ∃ o', (if dy > sy then (List.range h').reverse else List.range h').foldlM (fun o row =>
        (slice o ((sy + row) * width + sx) ((sy + row) * width + sx + w')).bind
          (copyFromSlice o ((dy + row) * width + dx)
            ((dy + row) * width + dx + ((sy + row) * width + sx + w' - ((sy + row) * width + sx))))) o = some o' ∧
      Copied width height sx sy dx dy w h o o' := by
  have hmem : ∀ row, row ∈ (if dy > sy then (List.range h').reverse else List.range h') ↔ row < h' := by
    intro row
    split <;> simp
  have horder : (if dy > sy then (List.range h').reverse else List.range h').Pairwise fun i j => dy + i ≠ sy + j := by
    split
    · apply List.pairwise_reverse.2
      apply List.pairwise_lt_range.imp
      intro i j hij
      omega
    · apply List.pairwise_lt_range.imp
      intro i j hij
      omega
  have hside := fun k => @min_sub_iff w width sx dx w' k hw
  have hside' := fun k => @min_sub_iff h height sy dy h' k hh
  clear hw hh
  have hlast := (hside (w' - 1)).1 (by omega)
  have hlast' := (hside' (h' - 1)).1 (by omega)
  obtain ⟨o', hfold, hlen', hpixel⟩ := copyRows sx dx w' (by omega) (by omega) (show sy + h' ≤ height by omega)
    (show dy + h' ≤ height by omega) _ (fun row hrow => (hmem row).1 hrow) horder hlen
  refine ⟨o', hfold, hlen', fun x y hx hy => ?_⟩
  have hin : (⟨dx, dy, w, h⟩ : Rect).Mem x y ∧ x - dx + sx < width ∧ y - dy + sy < height ↔
      (∃ row, row ∈ (if dy > sy then (List.range h').reverse else List.range h') ∧ y = dy + row) ∧ dx ≤ x ∧ x < dx + w' := by
    clear hlast hlast'
    simp only [Rect.Mem, hmem, hside']
    have hacross := hside (x - dx)
    constructor
    · rintro ⟨⟨hx0, hxw, hy0, hyh⟩, hsx, hsy⟩
      have hlow := hacross.2 ⟨by omega, by omega, by omega⟩
      exact ⟨⟨y - dy, ⟨by omega, by omega, by omega⟩, by omega⟩, by omega, by omega⟩
    · rintro ⟨⟨row, ⟨hrow, hsy, hdy⟩, rfl⟩, hx0, hxw⟩
      have hlow := hacross.1 (by omega)
      exact ⟨⟨by omega, by omega, by omega, by omega⟩, by omega, by omega⟩
  rw [hpixel x y hx]
  by_cases hm : (⟨dx, dy, w, h⟩ : Rect).Mem x y ∧ x - dx + sx < width ∧ y - dy + sy < height
  · rw [if_pos (hin.1 hm), if_pos hm]
  · rw [if_neg (mt hin.2 hm), if_neg hm]

end Vento.Lib
