import Vento.Lib.Bytes
import Vento.Lib.Raster
import Vento.Rfb.Framebuffer
/-!
# The desktop as pixels

`spice/src/framebuffer.rs`: the three ways a draw writes to it. Slices are
checked, and `none` is a check that failed; it never does, whatever the
rectangle, since each operation clips it first.
-/

namespace Vento.Spice

open Vento.Lib

structure Framebuffer where
  width : Nat
  height : Nat
  pixels : List UInt32
deriving DecidableEq, Repr

namespace Framebuffer

def clip (fb : Framebuffer) (x y w h : Nat) : Option Rect :=
  if x ≥ fb.width ∨ y ≥ fb.height then none
  else
    let w := min w (fb.width - x)
    let h := min h (fb.height - y)
    if w = 0 ∨ h = 0 then none else some ⟨x, y, w, h⟩

/-- `chunks_exact(4)`, each chunk a pixel. -/
def pixelWords : List UInt8 → List UInt32
  | r :: g :: b :: a :: rest => UInt32.ofNat (fromLeBytes [r, g, b, a]) :: pixelWords rest
  | _ => []

/-- `src` is `w × h` pixels of `R, G, B, A` bytes, clipped to the framebuffer.
The products are checked. -/
def blit (fb : Framebuffer) (x y w h : Nat) (src : List UInt8) : Option Framebuffer :=
  if w * h * 4 ≥ 2 ^ 64 ∨ src.length < w * h * 4 then some fb
  else
    match fb.clip x y w h with
    | none => some fb
    | some r => do
      let pixels ← (List.range r.h).foldlM (fun pixels row => do
        let bytes ← slice src (row * w * 4) (row * w * 4 + r.w * 4)
        copyFromSlice pixels ((r.y + row) * fb.width + r.x) ((r.y + row) * fb.width + r.x + r.w) (pixelWords bytes))
        fb.pixels
      return { fb with pixels }

/-- One colour over a rectangle. -/
def fill (fb : Framebuffer) (x y w h : Nat) (colour : UInt32) : Option Framebuffer :=
  match fb.clip x y w h with
  | none => some fb
  | some r => do
    let pixels ← (List.range r.h).foldlM (fun pixels row =>
      fillSlice pixels ((r.y + row) * fb.width + r.x) ((r.y + row) * fb.width + r.x + r.w) colour) fb.pixels
    return { fb with pixels }

/-- `xs.copy_within(lo..hi, dest)`. -/
def copyWithin (xs : List UInt32) (lo hi dest : Nat) : Option (List UInt32) := do
  let src ← slice xs lo hi
  copyFromSlice xs dest (dest + (hi - lo)) src

/-- `COPY_BITS`: the row order follows the direction of the move. -/
def copy (fb : Framebuffer) (srcX srcY dstX dstY w h : Nat) : Option Framebuffer :=
  let w := min (min w (fb.width - srcX)) (fb.width - dstX)
  let h := min (min h (fb.height - srcY)) (fb.height - dstY)
  if w = 0 ∨ h = 0 then some fb
  else do
    let rows := if dstY > srcY then (List.range h).reverse else List.range h
    let pixels ← rows.foldlM (fun pixels row =>
      let src := (srcY + row) * fb.width + srcX
      copyWithin pixels src (src + w) ((dstY + row) * fb.width + dstX)) fb.pixels
    return { fb with pixels }

/-! ## What they write -/

variable (fb : Framebuffer)

variable {fb} in
theorem clip_eq_some {x y w h : Nat} {r : Rect} (hc : fb.clip x y w h = some r) :
    r = ⟨x, y, min w (fb.width - x), min h (fb.height - y)⟩ ∧ r.Inside fb.width fb.height := by
  unfold clip at hc
  split at hc
  · cases hc
  · dsimp only at hc
    split at hc
    · cases hc
    · cases hc
      refine ⟨rfl, ?_⟩
      simp only [Rect.Inside]
      omega

theorem clip_some {x y w h : Nat} (hx : x < fb.width) (hy : y < fb.height) (hw : 0 < w) (hh : 0 < h) :
    fb.clip x y w h = some ⟨x, y, min w (fb.width - x), min h (fb.height - y)⟩ := by
  unfold clip
  rw [if_neg (by omega)]
  dsimp only
  rw [if_neg (by omega)]

theorem pixelWords_cons {bs : List UInt8} (h : 4 ≤ bs.length) :
    pixelWords bs = UInt32.ofNat (fromLeBytes (bs.take 4)) :: pixelWords (bs.drop 4) := by
  rcases bs with _ | ⟨r, _ | ⟨g, _ | ⟨b, _ | ⟨a, rest⟩⟩⟩⟩
  · simp at h
  · simp at h
  · simp at h
  · simp at h
  · rfl

theorem pixelWords_length (n : Nat) {bs : List UInt8} (h : bs.length = n * 4) : (pixelWords bs).length = n := by
  induction n generalizing bs with
  | zero =>
    rw [Nat.zero_mul, List.length_eq_zero_iff] at h
    rw [h]
    rfl
  | succ n ih =>
    rw [pixelWords_cons (by omega), List.length_cons, ih]
    rw [List.length_drop]
    omega

theorem pixelWords_getElem? (bs : List UInt8) (i : Nat) (h : i * 4 + 4 ≤ bs.length) :
    (pixelWords bs)[i]? = some (UInt32.ofNat (fromLeBytes ((bs.drop (i * 4)).take 4))) := by
  induction i generalizing bs with
  | zero =>
    rw [pixelWords_cons (by omega)]
    rfl
  | succ i ih =>
    rw [pixelWords_cons (by omega), List.getElem?_cons_succ, ih _ (by rw [List.length_drop]; omega), List.drop_drop,
      show 4 + i * 4 = (i + 1) * 4 by omega]

/-- The pixel of a source of that width at `x`, `y`. -/
def sourcePixel (src : List UInt8) (w x y : Nat) : UInt32 :=
  UInt32.ofNat (fromLeBytes ((src.drop ((y * w + x) * 4)).take 4))

/-- A row of a source, as pixels. -/
theorem pixelWords_row {src bytes : List UInt8} {w n row i : Nat}
    (hs : slice src (row * w * 4) (row * w * 4 + n * 4) = some bytes) (hi : i < n) :
    (pixelWords bytes)[i]? = some (sourcePixel src w i row) := by
  have hlen := slice_length hs
  obtain ⟨-, -, hbytes⟩ := slice_eq_some.1 hs
  have hfour : (bytes.drop (i * 4)).take 4 = (src.drop ((row * w + i) * 4)).take 4 := by
    rw [hbytes, List.drop_drop, List.drop_take, List.take_take, Nat.add_mul]
    congr 1
    omega
  rw [pixelWords_getElem? bytes i (by omega), hfour]
  rfl

/-- A `blit` puts the picture into its place, clipped, or does nothing. -/
theorem blit_painted (x y w h : Nat) (src : List UInt8) (hlen : fb.pixels.length = fb.width * fb.height) :
    ∃ pixels, fb.blit x y w h src = some { fb with pixels } ∧
      ((w * h * 4 ≥ 2 ^ 64 ∨ src.length < w * h * 4 ∨ fb.clip x y w h = none) ∧ pixels = fb.pixels ∨
        w * h * 4 < 2 ^ 64 ∧ w * h * 4 ≤ src.length ∧ ∃ r, fb.clip x y w h = some r ∧
          Painted fb.width r (fun px py => sourcePixel src w (px - x) (py - y)) fb.pixels pixels) := by
  unfold blit
  split
  · rename_i hbad
    refine ⟨fb.pixels, rfl, .inl ⟨?_, rfl⟩⟩
    rcases hbad with hbad | hbad
    · exact .inl hbad
    · exact .inr (.inl hbad)
  · rename_i hgood
    rw [not_or, Nat.not_le, Nat.not_lt] at hgood
    split
    · rename_i hc
      exact ⟨fb.pixels, rfl, .inl ⟨.inr (.inr hc), rfl⟩⟩
    · rename_i r hc
      obtain ⟨rfl, hw, hh⟩ := clip_eq_some hc
      have hrows : ∃ pixels, (List.range (min h (fb.height - y))).foldlM (fun pixels row => do
            let bytes ← slice src (row * w * 4) (row * w * 4 + min w (fb.width - x) * 4)
            copyFromSlice pixels ((y + row) * fb.width + x) ((y + row) * fb.width + x + min w (fb.width - x))
              (pixelWords bytes)) fb.pixels = some pixels ∧
          Painted fb.width ⟨x, y, min w (fb.width - x), min h (fb.height - y)⟩
            (fun px py => sourcePixel src w (px - x) (py - y)) fb.pixels pixels := by
        apply Painted.rows
        intro row hrow o ho
        simp only at hw hh
        -- a row of the source is as wide as the picture, a row of the pixels as the desktop
        have hsrc : row * w + min w (fb.width - x) ≤ w * h := stripe_le (Nat.min_le_left _ _) (by omega)
        have hdst : (y + row) * fb.width + x + min w (fb.width - x) ≤ fb.width * fb.height := row_le hw (by omega)
        obtain ⟨bytes, hs⟩ : ∃ bytes, slice src (row * w * 4) (row * w * 4 + min w (fb.width - x) * 4) = some bytes :=
          ⟨_, slice_eq_some.2 ⟨by omega, by omega, rfl⟩⟩
        have hwords : (pixelWords bytes).length = min w (fb.width - x) := by
          apply pixelWords_length
          rw [slice_length hs]
          omega
        obtain ⟨o', ho'⟩ : ∃ o', copyFromSlice o ((y + row) * fb.width + x)
            ((y + row) * fb.width + x + min w (fb.width - x)) (pixelWords bytes) = some o' :=
          ⟨_, copyFromSlice_eq_some.2 ⟨by omega, by omega, by omega, rfl⟩⟩
        refine ⟨o', ?_, ?_⟩
        · rw [hs]
          exact ho'
        · apply Painted.row hw _ ho'
          intro i hi
          rw [pixelWords_row hs hi]
          congr 2 <;> omega
      obtain ⟨pixels, hrows, hp⟩ := hrows
      refine ⟨pixels, ?_, .inr ⟨hgood.1, hgood.2, _, hc, hp⟩⟩
      dsimp only
      rw [hrows]
      rfl

theorem fill_painted (x y w h : Nat) (colour : UInt32) (hlen : fb.pixels.length = fb.width * fb.height) :
    ∃ pixels, fb.fill x y w h colour = some { fb with pixels } ∧ Framed fb.width ⟨x, y, w, h⟩ fb.pixels pixels := by
  unfold fill
  split
  · exact ⟨fb.pixels, rfl, rfl, fun _ _ _ _ => rfl⟩
  · rename_i r hc
    obtain ⟨rfl, hr⟩ := clip_eq_some hc
    obtain ⟨pixels, hrows, hp⟩ := painted_fill hr colour hlen
    refine ⟨pixels, ?_, hp.framed.mono fun px py hm => ?_⟩
    · rw [hrows]
      rfl
    · simp only [Rect.Mem] at hm ⊢
      omega

theorem copy_framed (srcX srcY dstX dstY w h : Nat) (hlen : fb.pixels.length = fb.width * fb.height) :
    ∃ pixels, fb.copy srcX srcY dstX dstY w h = some { fb with pixels } ∧
      Framed fb.width ⟨dstX, dstY, w, h⟩ fb.pixels pixels := by
  unfold copy
  dsimp only
  generalize hw : min (min w (fb.width - srcX)) (fb.width - dstX) = w'
  generalize hh : min (min h (fb.height - srcY)) (fb.height - dstY) = h'
  split
  · exact ⟨fb.pixels, rfl, rfl, fun _ _ _ _ => rfl⟩
  · next hsome =>
    have hside := fun k => @min_sub_iff w fb.width srcX dstX w' k hw
    have hside' := fun k => @min_sub_iff h fb.height srcY dstY h' k hh
    clear hw hh
    have hlast := (hside (w' - 1)).1 (by omega)
    -- the order of the rows matters to the pixels, not to where they are
    have hrows : ∃ pixels, (if dstY > srcY then (List.range h').reverse else List.range h').foldlM (fun pixels row =>
          copyWithin pixels ((srcY + row) * fb.width + srcX) ((srcY + row) * fb.width + srcX + w')
            ((dstY + row) * fb.width + dstX)) fb.pixels = some pixels ∧
        Framed fb.width ⟨dstX, dstY, w, h⟩ fb.pixels pixels := by
      apply Framed.foldlM
      intro row hrow o ho
      have hrow' : row < h ∧ srcY + row < fb.height ∧ dstY + row < fb.height :=
        (hside' row).1 (by split at hrow <;> simpa using hrow)
      have h1 : (srcY + row) * fb.width + srcX + w' ≤ fb.width * fb.height := row_le (by omega) (by omega)
      have h2 : (dstY + row) * fb.width + dstX + w' ≤ fb.width * fb.height := row_le (by omega) (by omega)
      obtain ⟨src, hs⟩ : ∃ src, slice o ((srcY + row) * fb.width + srcX) ((srcY + row) * fb.width + srcX + w') = some src :=
        ⟨_, slice_eq_some.2 ⟨by omega, by omega, rfl⟩⟩
      have hsrc := slice_length hs
      obtain ⟨o', ho'⟩ : ∃ o', copyFromSlice o ((dstY + row) * fb.width + dstX)
          ((dstY + row) * fb.width + dstX + w') src = some o' :=
        ⟨_, copyFromSlice_eq_some.2 ⟨by omega, by omega, by omega, rfl⟩⟩
      refine ⟨o', ?_, ?_⟩
      · rw [copyWithin, hs, Option.bind_eq_bind, Option.bind_some, Nat.add_sub_cancel_left]
        exact ho'
      · have hp : Painted fb.width ⟨dstX, dstY + row, w', 1⟩ (fun px _ => (src[px - dstX]?).getD 0) o o' := by
          apply Painted.row (by omega) _ ho'
          intro i hi
          rw [Nat.add_sub_cancel_left, List.getElem?_eq_getElem (by omega)]
          rfl
        apply hp.framed.mono
        intro px py hm
        simp only [Rect.Mem] at hm ⊢
        omega
    obtain ⟨pixels, hrows, hp⟩ := hrows
    refine ⟨pixels, ?_, hp⟩
    rw [hrows]
    rfl

/-- A copy takes the pixels as they were before it, whichever way it goes. -/
theorem copy_copied (srcX srcY dstX dstY w h : Nat) (hlen : fb.pixels.length = fb.width * fb.height) :
    ∃ pixels, fb.copy srcX srcY dstX dstY w h = some { fb with pixels } ∧
      Copied fb.width fb.height srcX srcY dstX dstY w h fb.pixels pixels := by
  unfold copy
  dsimp only
  generalize hw : min (min w (fb.width - srcX)) (fb.width - dstX) = w'
  generalize hh : min (min h (fb.height - srcY)) (fb.height - dstY) = h'
  split
  · next hnone => exact ⟨fb.pixels, rfl, rfl, fun x y hx hy => (if_neg (not_mem_of_empty hw hh hnone hx hy)).symm⟩
  · next hsome =>
    obtain ⟨hw', hh'⟩ := not_or.1 hsome
    obtain ⟨pixels, hrows, hcopied⟩ := copied_rows srcX srcY dstX dstY w h hlen hw hh hw' hh'
    refine ⟨pixels, ?_, hcopied⟩
    have hcopy : List.foldlM (fun pixels row =>
        copyWithin pixels ((srcY + row) * fb.width + srcX) ((srcY + row) * fb.width + srcX + w') ((dstY + row) * fb.width + dstX))
        fb.pixels (if dstY > srcY then (List.range h').reverse else List.range h') = some pixels := hrows
    rw [hcopy]
    rfl

/-- Both desktops' copies leave every pixel of the destination whose source is on the desktop as the source was before,
and the others as they were. -/
theorem copies_snapshot (srcX srcY dstX dstY w h : Nat) :
    (∀ fb : Rfb.Framebuffer, fb.pixels.length = fb.width * fb.height →
      ∃ pixels, fb.copy srcX srcY dstX dstY w h = some { fb with pixels } ∧
        Copied fb.width fb.height srcX srcY dstX dstY w h fb.pixels pixels) ∧
    ∀ fb : Framebuffer, fb.pixels.length = fb.width * fb.height →
      ∃ pixels, fb.copy srcX srcY dstX dstY w h = some { fb with pixels } ∧
        Copied fb.width fb.height srcX srcY dstX dstY w h fb.pixels pixels :=
  ⟨fun _ hlen => Rfb.Framebuffer.copy_copied srcX srcY dstX dstY w h hlen, fun fb hlen => copy_copied fb srcX srcY dstX dstY w h hlen⟩

/-- A scroll down by a row and right by one, over itself and past the edge. -/
theorem copies_snapshot_scroll :
    (∃ pixels, (⟨3, 2, [1, 2, 3, 4, 5, 6]⟩ : Rfb.Framebuffer).copy 0 0 1 1 3 2 = some ⟨3, 2, pixels⟩ ∧
      Copied 3 2 0 0 1 1 3 2 [1, 2, 3, 4, 5, 6] pixels) ∧
    ∃ pixels, (⟨3, 2, [1, 2, 3, 4, 5, 6]⟩ : Framebuffer).copy 0 0 1 1 3 2 = some ⟨3, 2, pixels⟩ ∧
      Copied 3 2 0 0 1 1 3 2 [1, 2, 3, 4, 5, 6] pixels :=
  ⟨(copies_snapshot 0 0 1 1 3 2).1 _ rfl, (copies_snapshot 0 0 1 1 3 2).2 _ rfl⟩

end Framebuffer

end Vento.Spice
