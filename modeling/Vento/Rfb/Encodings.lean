import Vento.Rfb.Decode
/-!
# Valid Raw, RRE and Hextile encodings

What a server may send for a picture, as relations between the picture and the
bytes: every choice the format leaves to the server is open here. Decoding
inverts all of them.

A picture is `img : Nat → Nat → Rgb`, column first. Subrects are in their own
rectangle's or tile's coordinates, each painted over the ones before it.
-/

namespace Vento.Rfb

open Vento.Lib Parser Decode

/-! ## The encodings -/

/-- The wire pixels of a list of colours. -/
inductive ArePixels : List Rgb → List UInt8 → Prop
  | nil : ArePixels [] []
  | cons {c : Rgb} {cs : List Rgb} {bs bs' : List UInt8} :
    IsPixel c bs → ArePixels cs bs' → ArePixels (c :: cs) (bs ++ bs')

/-- A background under flat subrects. -/
def paint (background : Rgb) (subrects : List (Rect × Rgb)) (x y : Nat) : Rgb :=
  subrects.foldl (fun c s => if s.1.Mem x y then s.2 else c) background

/-- A subrect of RRE: its colour, then its geometry in 16-bit fields. -/
def IsRreSubrect (w h : Nat) (s : Rect × Rgb) (bs : List UInt8) : Prop :=
  s.1.Inside w h ∧ s.1.x < 2 ^ 16 ∧ s.1.y < 2 ^ 16 ∧ s.1.w < 2 ^ 16 ∧ s.1.h < 2 ^ 16 ∧
    ∃ px, IsPixel s.2 px ∧
      bs = px ++ (toBeBytes 2 s.1.x ++ (toBeBytes 2 s.1.y ++ (toBeBytes 2 s.1.w ++ toBeBytes 2 s.1.h)))

def IsRre (w h : Nat) (img : Nat → Nat → Rgb) (bs : List UInt8) : Prop :=
  ∃ background subrects px body, subrects.length < 2 ^ 32 ∧ IsPixel background px ∧
    Chain (fun _ s bs _ => IsRreSubrect w h s bs) () subrects body () ∧
    (∀ x y, x < w → y < h → img x y = paint background subrects x y) ∧
    bs = toBeBytes 4 subrects.length ++ (px ++ body)

/-- The colours a Hextile tile may leave to the tiles after it; `none` before
any tile has given one. -/
structure Carried where
  background : Option Rgb
  foreground : Option Rgb

/-- A colour is given with the flag and carried over without it. -/
inductive IsGiven (flags flag : UInt8) : Option Rgb → List UInt8 → Option Rgb → Prop
  | given {old : Option Rgb} {c : Rgb} {bs : List UInt8} :
    flags &&& flag ≠ 0 → IsPixel c bs → IsGiven flags flag old bs (some c)
  | carried {old : Option Rgb} : flags &&& flag = 0 → IsGiven flags flag old [] old

/-- A subrect of a `tw × th` Hextile tile: a colour of its own or the
foreground, then four bits for each of x, y, width - 1 and height - 1. -/
def IsHextileSubrect (tw th : Nat) (flags : UInt8) (foreground : Option Rgb) (s : Rect × Rgb) (bs : List UInt8) :
    Prop :=
  s.1.Inside tw th ∧ 0 < s.1.w ∧ 0 < s.1.h ∧
    ∃ px, IsGiven flags hextileColoured foreground px (some s.2) ∧
      bs = px ++ [UInt8.ofNat (s.1.x * 16 + s.1.y), UInt8.ofNat ((s.1.w - 1) * 16 + (s.1.h - 1))]

/-- The subrects, with their count, where the flag says there are any. -/
inductive AreHextileSubrects (tw th : Nat) (flags : UInt8) (foreground : Option Rgb) :
    List (Rect × Rgb) → List UInt8 → Prop
  | none : flags &&& hextileSubrects = 0 → AreHextileSubrects tw th flags foreground [] []
  | some {subrects : List (Rect × Rgb)} {bs : List UInt8} :
    flags &&& hextileSubrects ≠ 0 → subrects.length < 2 ^ 8 →
    Chain (fun _ s bs _ => IsHextileSubrect tw th flags foreground s bs) () subrects bs () →
    AreHextileSubrects tw th flags foreground subrects (UInt8.ofNat subrects.length :: bs)

/-- A Hextile tile at `t` of the picture. The flags a raw tile does not look at
are free, and it leaves the carried colours as they are. -/
inductive IsHextileTile (img : Nat → Nat → Rgb) (t : Rect) : Carried → List UInt8 → Carried → Prop
  | raw {c : Carried} {flags : UInt8} {bs : List UInt8} :
    flags &&& hextileRaw ≠ 0 → ArePixels (raster t.w t.h fun x y => img (t.x + x) (t.y + y)) bs →
    IsHextileTile img t c (flags :: bs) c
  | painted {c : Carried} {flags : UInt8} {background : Rgb} {foreground : Option Rgb} {subrects : List (Rect × Rgb)}
      {bs bs' bs'' : List UInt8} :
    flags &&& hextileRaw = 0 →
    IsGiven flags hextileBackground c.background bs (some background) →
    IsGiven flags hextileForeground c.foreground bs' foreground →
    AreHextileSubrects t.w t.h flags foreground subrects bs'' →
    (∀ x y, x < t.w → y < t.h → img (t.x + x) (t.y + y) = paint background subrects x y) →
    IsHextileTile img t c (flags :: (bs ++ (bs' ++ bs''))) ⟨some background, foreground⟩

def IsHextile (w h : Nat) (img : Nat → Nat → Rgb) (bs : List UInt8) : Prop :=
  ∃ c, Chain (fun c t bs c' => IsHextileTile img t c bs c') ⟨none, none⟩ (Rect.grid w h 16) bs c

/-! ## Raw -/

theorem ArePixels.length {cs : List Rgb} {bs : List UInt8} (h : ArePixels cs bs) : bs.length = cs.length * 4 := by
  induction h with
  | nil => rfl
  | cons hp _ ih =>
    obtain ⟨pad, rfl⟩ := hp
    simp only [List.length_append, List.length_cons, List.length_nil, ih]
    omega

theorem ArePixels.chain {cs : List Rgb} {bs : List UInt8} (h : ArePixels cs bs) :
    Chain (fun _ c bs _ => IsPixel c bs) () cs bs () := by
  induction h with
  | nil => exact .nil ()
  | cons hp _ ih => exact .cons hp ih

theorem ArePixels.pixels_eq {cs : List Rgb} {bs : List UInt8} (h : ArePixels cs bs) : pixels bs = cs.map pack := by
  induction h with
  | nil => rfl
  | cons hp _ ih =>
    obtain ⟨pad, rfl⟩ := hp
    simp [pixels, ih]

theorem raster_map {α β : Type} (w h : Nat) (pix : Nat → Nat → α) (f : α → β) :
    (raster w h pix).map f = raster w h fun x y => f (pix x y) := by
  simp only [raster, List.map_flatMap, List.map_map]
  rfl

theorem parses_raw {w h : Nat} {img : Nat → Nat → Rgb} {bs : List UInt8} (he : ArePixels (raster w h img) bs) :
    Parses (raw w h) bs (raster w h fun x y => pack (img x y)) := by
  have hlen : bs.length = w * h * 4 := by simpa using he.length
  have hp := (parses_bytes bs).map pixels
  rwa [hlen, he.pixels_eq, raster_map] at hp

/-! ## RRE -/

theorem paint_snoc (background : Rgb) (subrects : List (Rect × Rgb)) (s : Rect × Rgb) (x y : Nat) :
    paint background (subrects ++ [s]) x y = if s.1.Mem x y then s.2 else paint background subrects x y := by
  simp [paint, List.foldl_append]

theorem parses_rreSubrect {w h : Nat} {out : List UInt32} {s : Rect × Rgb} {bs : List UInt8}
    (he : IsRreSubrect w h s bs) (hlen : out.length = w * h) :
    ∃ out', Parses (rreSubrect w h out) bs out' ∧ Painted w s.1 (fun _ _ => pack s.2) out out' := by
  obtain ⟨⟨hw, hh⟩, h1, h2, h3, h4, px, hpx, rfl⟩ := he
  obtain ⟨out', hfill, hp⟩ := fill_painted hlen s.1.x s.1.y s.1.w s.1.h (pack s.2)
  rw [Nat.min_eq_left (by omega), Nat.min_eq_left (by omega)] at hp
  refine ⟨out', ?_, hp⟩
  unfold rreSubrect
  refine (parses_pixel hpx).bind ((parses_u16 h1).bind ((parses_u16 h2).bind ((parses_u16 h3).bind ?_)))
  refine (parses_u16 h4).bind_last ?_
  rw [hfill]
  exact Parses.pure out'

theorem parses_rre {w h : Nat} {img : Nat → Nat → Rgb} {bs : List UInt8} (he : IsRre w h img bs) :
    Parses (rre w h) bs (raster w h fun x y => pack (img x y)) := by
  obtain ⟨background, subrects, px, body, hcount, hpx, hbody, himg, rfl⟩ := he
  -- after the subrects `done`, the scratch space is the background under them
  obtain ⟨out, hp, hlen, hout⟩ := hbody.parses_repeatM (f := rreSubrect w h)
    (s := List.replicate (w * h) (pack background))
    (fun done _ out => out.length = w * h ∧
      ∀ x y, x < w → y < h → out[y * w + x]? = some (pack (paint background done x y)))
    (by
      rintro done s - - bs - out ⟨hlen, hout⟩ hs
      obtain ⟨out', hp, hp'⟩ := parses_rreSubrect hs hlen
      refine ⟨out', hp, hp'.length.trans hlen, fun x y hx hy => ?_⟩
      rw [hp'.pixel x y hx, hout x y hx hy, paint_snoc]
      split <;> rfl)
    (by
      refine ⟨by simp, fun x y hx hy => ?_⟩
      rw [List.getElem?_replicate_of_lt (index_lt hx hy)]
      rfl)
  have heq : out = raster w h fun x y => pack (img x y) :=
    eq_raster hlen fun x y hx hy => by rw [hout x y hx hy, himg x y hx hy]
  unfold rre
  exact (parses_u32 hcount).bind ((parses_pixel hpx).bind (heq ▸ hp))

/-! ## Hextile -/

theorem nibbles : ∀ a < 16, ∀ b < 16,
    (UInt8.ofNat (a * 16 + b) >>> 4).toNat = a ∧ (UInt8.ofNat (a * 16 + b) &&& 0x0f).toNat = b := by
  decide

theorem parses_given {flags flag : UInt8} {old new : Option Rgb} {bs : List UInt8} {word : UInt32}
    (he : IsGiven flags flag old bs new) (hold : ∀ c ∈ old, word = pack c) :
    ∃ word', Parses (given flags flag word) bs word' ∧ ∀ c ∈ new, word' = pack c := by
  unfold given
  cases he with
  | @given c _ hf hpx =>
    rw [if_pos hf]
    exact ⟨pack c, parses_pixel hpx, fun c' hc' => by rw [Option.some.inj hc']⟩
  | carried hf =>
    rw [if_neg (by simp [hf])]
    exact ⟨word, Parses.pure word, hold⟩

/-- Painting a subrect of the tile `t` of a picture. -/
theorem parses_hextileSubrect {w h : Nat} {t : Rect} (ht : t.Inside w h) (htw : t.w ≤ 16) (hth : t.h ≤ 16)
    {out : List UInt32} (hlen : out.length = w * h) {flags : UInt8} {foreground : Option Rgb} {word : UInt32}
    (hword : ∀ c ∈ foreground, word = pack c) {s : Rect × Rgb} {bs : List UInt8}
    (he : IsHextileSubrect t.w t.h flags foreground s bs) :
    ∃ out', Parses (hextileSubrect w h t flags word out) bs out' ∧
      Painted w ⟨t.x + s.1.x, t.y + s.1.y, s.1.w, s.1.h⟩ (fun _ _ => pack s.2) out out' := by
  obtain ⟨⟨hw, hh⟩, hw0, hh0, px, hpx, rfl⟩ := he
  obtain ⟨hx, hy⟩ := nibbles s.1.x (by omega) s.1.y (by omega)
  obtain ⟨hw', hh'⟩ := nibbles (s.1.w - 1) (by omega) (s.1.h - 1) (by omega)
  obtain ⟨out', hfill, hp⟩ := fill_painted hlen (t.x + s.1.x) (t.y + s.1.y) s.1.w s.1.h (pack s.2)
  obtain ⟨hi, hi'⟩ := ht
  rw [Nat.min_eq_left (by omega), Nat.min_eq_left (by omega)] at hp
  refine ⟨out', ?_, hp⟩
  unfold hextileSubrect
  obtain ⟨colour, hgiven, hcolour⟩ := parses_given hpx hword
  rw [hcolour s.2 rfl] at hgiven
  refine hgiven.bind ((parses_u8 _).bind ((parses_u8 _).bind_last ?_))
  simp only [hx, hy, hw', hh']
  rw [show s.1.w - 1 + 1 = s.1.w by omega, show s.1.h - 1 + 1 = s.1.h by omega, Nat.min_eq_left (by omega),
    Nat.min_eq_left (by omega), hfill]
  exact Parses.pure out'

theorem parses_hextileSubrects {w h : Nat} {t : Rect} (ht : t.Inside w h) (htw : t.w ≤ 16) (hth : t.h ≤ 16)
    {out₀ out : List UInt32} (hlen : out₀.length = w * h) {flags : UInt8} {foreground : Option Rgb} {word : UInt32}
    (hword : ∀ c ∈ foreground, word = pack c) {background : Rgb}
    (hout : Painted w t (fun _ _ => pack background) out₀ out) {subrects : List (Rect × Rgb)} {bs : List UInt8}
    (hc : Chain (fun _ s bs _ => IsHextileSubrect t.w t.h flags foreground s bs) () subrects bs ()) :
    ∃ out', Parses (repeatM subrects.length (hextileSubrect w h t flags word) out) bs out' ∧
      Painted w t (fun x y => pack (paint background subrects (x - t.x) (y - t.y))) out₀ out' := by
  refine hc.parses_repeatM
    (fun done _ out => Painted w t (fun x y => pack (paint background done (x - t.x) (y - t.y))) out₀ out) ?_ hout
  -- the subrects so far are painted over the background, and the next one over them
  rintro done s - - bs - out hout hs
  have hin : s.1.Inside t.w t.h := hs.1
  obtain ⟨hw, hh⟩ := hin
  obtain ⟨out', hp, hp'⟩ := parses_hextileSubrect ht htw hth (hout.length.trans hlen) hword hs
  refine ⟨out', hp, (hout.overlay hp' fun x y hm => ?_).congr fun x y hm => ?_⟩
  · simp only [Rect.Mem] at *
    omega
  · have hiff : (⟨t.x + s.1.x, t.y + s.1.y, s.1.w, s.1.h⟩ : Rect).Mem x y ↔ s.1.Mem (x - t.x) (y - t.y) := by
      simp only [Rect.Mem] at *
      omega
    rw [paint_snoc]
    by_cases hs : s.1.Mem (x - t.x) (y - t.y) <;> simp [hiff, hs]

/-- What a tile does once its background is filled in. -/
theorem parses_hextilePainted {w h : Nat} {t : Rect} (ht : t.Inside w h) (htw : t.w ≤ 16) (hth : t.h ≤ 16)
    {out₀ out : List UInt32} (hlen : out₀.length = w * h) {flags : UInt8} {foreground : Option Rgb} {word : UInt32}
    (hword : ∀ c ∈ foreground, word = pack c) {background : Rgb}
    (hout : Painted w t (fun _ _ => pack background) out₀ out) {subrects : List (Rect × Rgb)} {bs : List UInt8}
    (hsubs : AreHextileSubrects t.w t.h flags foreground subrects bs) :
    ∃ out', Parses (if flags &&& hextileSubrects = 0 then pure ⟨out, pack background, word⟩ else do
        let count ← u8
        let out ← repeatM count.toNat (hextileSubrect w h t flags word) out
        return (⟨out, pack background, word⟩ : HextileState)) bs ⟨out', pack background, word⟩ ∧
      Painted w t (fun x y => pack (paint background subrects (x - t.x) (y - t.y))) out₀ out' := by
  cases hsubs with
  | none hf =>
    rw [if_pos hf]
    exact ⟨out, Parses.pure _, hout⟩
  | some hf hcount hc =>
    obtain ⟨out', hp, hpaint⟩ := parses_hextileSubrects ht htw hth hlen hword hout hc
    refine ⟨out', ?_, hpaint⟩
    rw [if_neg hf]
    refine (parses_u8 _).bind ?_
    rw [UInt8.toNat_ofNat_of_lt' hcount]
    exact hp.bind_last (Parses.pure _)

theorem parses_hextileTile {w h : Nat} {img : Nat → Nat → Rgb} {t : Rect} (ht : t ∈ Rect.grid w h 16)
    {s : HextileState} (hlen : s.out.length = w * h) {c c' : Carried} {bs : List UInt8}
    (hbg : ∀ k ∈ c.background, s.background = pack k) (hfg : ∀ k ∈ c.foreground, s.foreground = pack k)
    (he : IsHextileTile img t c bs c') :
    ∃ s', Parses (hextileTile w h s t) bs s' ∧ Painted w t (fun x y => pack (img x y)) s.out s'.out ∧
      (∀ k ∈ c'.background, s'.background = pack k) ∧ (∀ k ∈ c'.foreground, s'.foreground = pack k) := by
  have hin := Rect.grid_inside (by decide) ht
  obtain ⟨htw, hth⟩ : t.w ≤ 16 ∧ t.h ≤ 16 := by
    obtain ⟨-, -, htw, hth⟩ := (Rect.mem_grid (by decide)).1 ht
    omega
  -- a pixel's place in the tile, and back
  have habs : ∀ x y, t.Mem x y → t.x + (x - t.x) = x ∧ t.y + (y - t.y) = y ∧ x - t.x < t.w ∧ y - t.y < t.h := by
    intro x y hm
    simp only [Rect.Mem] at hm
    omega
  unfold hextileTile
  cases he with
  | raw hf hpx =>
    obtain ⟨out', hblit, hp⟩ := blit_painted hin hlen fun x y => pack (img (t.x + x) (t.y + y))
    refine ⟨{ s with out := out' }, ?_, hp.congr fun x y hm => ?_, hbg, hfg⟩
    · refine (parses_u8 _).bind ?_
      rw [if_pos hf]
      refine (parses_raw hpx).bind_last ?_
      rw [hblit]
      exact (Parses.pure out').bind_nil (Parses.pure _)
    · obtain ⟨hx, hy, -, -⟩ := habs x y hm
      rw [hx, hy]
  | @painted flags background foreground subrects bs bs' bs'' hf hbg' hfg' hsubs himg =>
    obtain ⟨bgWord, hp1, hbg1⟩ := parses_given hbg' hbg
    obtain rfl := hbg1 background rfl
    obtain ⟨fgWord, hp2, hfg1⟩ := parses_given hfg' hfg
    obtain ⟨out, hfill, hout⟩ := fill_painted hlen t.x t.y t.w t.h (pack background)
    have hi : t.x + t.w ≤ w := hin.1
    have hi' : t.y + t.h ≤ h := hin.2
    rw [Nat.min_eq_left (by omega), Nat.min_eq_left (by omega)] at hout
    obtain ⟨out', hp3, hpaint⟩ := parses_hextilePainted hin htw hth hlen hfg1 hout hsubs
    refine ⟨⟨out', pack background, fgWord⟩, ?_, hpaint.congr fun x y hm => ?_, ?_, hfg1⟩
    · refine (parses_u8 flags).bind ?_
      rw [if_neg (by simp [hf])]
      refine hp1.bind (hp2.bind ?_)
      rw [hfill]
      exact (Parses.pure out).bind_nil hp3
    · obtain ⟨hx, hy, hx', hy'⟩ := habs x y hm
      rw [← himg _ _ hx' hy', hx, hy]
    · exact hbg1

theorem parses_hextile {w h : Nat} {img : Nat → Nat → Rgb} {bs : List UInt8} (he : IsHextile w h img bs) :
    Parses (hextile w h) bs (raster w h fun x y => pack (img x y)) := by
  obtain ⟨c, hc⟩ := he
  obtain ⟨s, hp, heq⟩ := parses_tiles (by decide) (fun x y => pack (img x y)) (f := hextileTile w h)
    HextileState.out
    (fun c s => (∀ k ∈ c.background, s.background = pack k) ∧ ∀ k ∈ c.foreground, s.foreground = pack k) hc
    (fun t ht c bs c' s hlen hJ htile => parses_hextileTile ht hlen hJ.1 hJ.2 htile)
    (s := ⟨List.replicate (w * h) black, black, black⟩) (by simp) (by simp)
  rw [← heq]
  exact hp.map _

/-- Hextile and RRE decode every valid encoding to its picture, reading exactly
the encoding; on any bytes they end in an error or in `w * h` pixels; and a
tile's, a subrect's or a `fill`'s writes stay where they belong, whatever is in
the scratch space. -/
theorem hextile_and_rre (w h : Nat) :
    (∀ img bs, IsHextile w h img bs → Parses (hextile w h) bs (raster w h fun x y => pack (img x y))) ∧
    (∀ img bs, IsRre w h img bs → Parses (rre w h) bs (raster w h fun x y => pack (img x y))) ∧
    Sat (hextile w h) (fun out => out.length = w * h) Failure.IsError ∧
    Sat (rre w h) (fun out => out.length = w * h) Failure.IsError ∧
    (∀ t ∈ Rect.grid w h 16, ∀ s : HextileState, s.out.length = w * h →
      Sat (hextileTile w h s t) (fun s' => Framed w t s.out s'.out) Failure.IsError) ∧
    (∀ t ∈ Rect.grid w h 16, ∀ flags foreground, ∀ out : List UInt32, out.length = w * h →
      Sat (hextileSubrect w h t flags foreground out) (Framed w t out) Failure.IsError) ∧
    (∀ x y sw sh colour, ∀ out : List UInt32, out.length = w * h → ∃ out',
      fill out w h x y sw sh colour = some out' ∧ Framed w ⟨x, y, min sw (w - x), min sh (h - y)⟩ out out') := by
  refine ⟨fun _ _ => parses_hextile, fun _ _ => parses_rre, sat_hextile w h, sat_rre w h, ?_, ?_, ?_⟩
  · exact fun t ht s hlen => sat_hextileTile (Rect.grid_inside (by decide) ht) hlen
  · exact fun t _ flags foreground out hlen => sat_hextileSubrect hlen flags foreground
  · intro x y sw sh colour out hlen
    obtain ⟨out', hfill, hp⟩ := fill_painted hlen x y sw sh colour
    exact ⟨out', hfill, hp.framed⟩

/-- A red pixel at the end of the first of two tiles, on a background that the
second tile carries over. -/
def dotted (x _y : Nat) : Rgb := if x = 15 then ⟨255, 0, 0⟩ else ⟨9, 8, 7⟩

theorem isHextile_dotted : IsHextile 17 1 dotted [14, 9, 8, 7, 0, 255, 0, 0, 0, 1, 0xf0, 0x00, 0] := by
  have hgrid : Rect.grid 17 1 16 = [⟨0, 0, 16, 1⟩, ⟨16, 0, 1, 1⟩] := by decide
  have hsub : AreHextileSubrects 16 1 14 (some ⟨255, 0, 0⟩) [(⟨15, 0, 1, 1⟩, ⟨255, 0, 0⟩)] [1, 0xf0, 0x00] :=
    .some (by decide) (by decide) (.one ⟨by decide, by decide, by decide, [], .carried (by decide), by decide⟩)
  have hback : IsGiven 14 hextileBackground none [9, 8, 7, 0] (some ⟨9, 8, 7⟩) := .given (by decide) ⟨0, rfl⟩
  have hfore : IsGiven 14 hextileForeground none [255, 0, 0, 0] (some ⟨255, 0, 0⟩) := .given (by decide) ⟨0, rfl⟩
  have hfirst : IsHextileTile dotted ⟨0, 0, 16, 1⟩ ⟨none, none⟩ [14, 9, 8, 7, 0, 255, 0, 0, 0, 1, 0xf0, 0x00]
      ⟨some ⟨9, 8, 7⟩, some ⟨255, 0, 0⟩⟩ := by
    refine @IsHextileTile.painted dotted ⟨0, 0, 16, 1⟩ ⟨none, none⟩ 14 _ _ _ _ _ _ (by decide) hback hfore hsub
      fun x y hx hy => ?_
    simp only [dotted, paint, Rect.Mem, List.foldl_cons, List.foldl_nil]
    grind
  have hsecond : IsHextileTile dotted ⟨16, 0, 1, 1⟩ ⟨some ⟨9, 8, 7⟩, some ⟨255, 0, 0⟩⟩ [0]
      ⟨some ⟨9, 8, 7⟩, some ⟨255, 0, 0⟩⟩ := by
    refine @IsHextileTile.painted _ _ _ 0 _ _ [] [] [] [] (by decide) (.carried (by decide)) (.carried (by decide))
      (.none (by decide)) fun x y hx hy => ?_
    simp only [dotted, paint, List.foldl_nil]
    grind
  rw [IsHextile, hgrid]
  have hchain : Chain (fun c t bs c' => IsHextileTile dotted t c bs c') ⟨none, none⟩
      [⟨0, 0, 16, 1⟩, ⟨16, 0, 1, 1⟩] ([14, 9, 8, 7, 0, 255, 0, 0, 0, 1, 0xf0, 0x00] ++ [0])
      ⟨some ⟨9, 8, 7⟩, some ⟨255, 0, 0⟩⟩ := .cons hfirst (.one hsecond)
  exact ⟨_, hchain⟩

theorem isRre_dot : IsRre 2 2 (fun x y => if x = 1 ∧ y = 0 then ⟨255, 0, 0⟩ else ⟨0, 0, 0⟩)
    [0, 0, 0, 1, 0, 0, 0, 0, 255, 0, 0, 0, 0, 1, 0, 0, 0, 1, 0, 1] := by
  refine ⟨⟨0, 0, 0⟩, [(⟨1, 0, 1, 1⟩, ⟨255, 0, 0⟩)], [0, 0, 0, 0], [255, 0, 0, 0, 0, 1, 0, 0, 0, 1, 0, 1],
    by decide, ⟨0, rfl⟩,
    .one ⟨by decide, by decide, by decide, by decide, by decide, [255, 0, 0, 0], ⟨0, rfl⟩, by decide⟩, ?_, by decide⟩
  intro x y hx hy
  simp only [paint, Rect.Mem, List.foldl_cons, List.foldl_nil]
  grind

theorem hextile_and_rre_dotted :
    Parses (hextile 17 1) [14, 9, 8, 7, 0, 255, 0, 0, 0, 1, 0xf0, 0x00, 0] (raster 17 1 fun x y => pack (dotted x y)) ∧
    Parses (rre 2 2) [0, 0, 0, 1, 0, 0, 0, 0, 255, 0, 0, 0, 0, 1, 0, 0, 0, 1, 0, 1]
      (raster 2 2 fun x y => pack (if x = 1 ∧ y = 0 then ⟨255, 0, 0⟩ else ⟨0, 0, 0⟩)) :=
  ⟨(hextile_and_rre 17 1).1 _ _ isHextile_dotted, (hextile_and_rre 2 2).2.1 _ _ isRre_dot⟩

end Vento.Rfb
