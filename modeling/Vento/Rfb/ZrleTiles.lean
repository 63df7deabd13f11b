import Vento.Rfb.ZrleEncodings
/-!
# ZRLE tiles and the palette array

The palette array outlives a tile, and an index is not checked against the
tile's palette size. So a tile's pixels are its own where its indices are below
that size; elsewhere they show what an earlier tile left in the array.

`provenance` runs the tile reader on marks instead of colours: a colour of the
tile's own, or the entry of the array that the tile found there.
-/

namespace Vento.Rfb.Decode

open Vento.Lib Parser

/-! ## The reader on other colours -/

section Natural

variable {β γ : Type} (g : β → γ) (ofWord : UInt32 → β)

theorem cpixels_map (n : Nat) : cpixels (fun c => g (ofWord c)) n = List.map g <$> cpixels ofWord n := by
  refine repeatM_map (List.map g) (s := []) (fun cs => ?_) n
  rw [map_bind]
  simp

theorem entry_map (palette : List β) (i : Nat) :
    entry (fun c => g (ofWord c)) (palette.map g) i = g (entry ofWord palette i) := by
  simp only [entry, List.getD_eq_getElem?_getD, List.getElem?_map]
  cases palette[i]? <;> rfl

theorem readPalette_map (size : Nat) (palette : List β) :
    readPalette (fun c => g (ofWord c)) size (palette.map g) = List.map g <$> readPalette ofWord size palette := by
  simp only [readPalette, cpixels_map, map_bind, bind_map_left]
  simp

theorem packedRow_map (palette : List β) (bits tw : Nat) (tile : List β) :
    packedRow (fun c => g (ofWord c)) (palette.map g) bits tw (tile.map g) =
      List.map g <$> packedRow ofWord palette bits tw tile := by
  have h : whileM .hangs (fun s : Nat × List γ => s.1 < tw)
      (fun s => do
        let byte ← tilesU8
        let taken := min (8 / bits) (tw - s.1)
        return (s.1 + taken, s.2 ++ (List.range taken).map fun slot =>
          entry (fun c => g (ofWord c)) (palette.map g) (packedIndex bits byte slot))) tw (0, tile.map g) =
      (fun s => (s.1, s.2.map g)) <$> whileM .hangs (fun s : Nat × List β => s.1 < tw)
        (fun s => do
          let byte ← tilesU8
          let taken := min (8 / bits) (tw - s.1)
          return (s.1 + taken, s.2 ++ (List.range taken).map fun slot =>
            entry ofWord palette (packedIndex bits byte slot))) tw (0, tile) :=
    whileM_map (fun s : Nat × List β => (s.1, s.2.map g)) (fun _ => rfl) (fun s => by
      rw [map_bind]
      simp [entry_map, Function.comp_def]) tw (0, tile)
  simp only [packedRow, h]
  simp only [← comp_map]
  rfl

theorem plainRle_map (n : Nat) : plainRle (fun c => g (ofWord c)) n = List.map g <$> plainRle ofWord n := by
  refine whileM_map (List.map g) (s := []) (fun tile => by simp) (fun tile => ?_) n
  simp only [map_bind]
  simp

theorem paletteRle_map (palette : List β) (n : Nat) :
    paletteRle (fun c => g (ofWord c)) (palette.map g) n = List.map g <$> paletteRle ofWord palette n := by
  refine whileM_map (List.map g) (s := []) (fun tile => by simp) (fun tile => ?_) n
  simp only [map_bind]
  simp [entry_map]

theorem tilePixels_map (tw th : Nat) (palette : List β) :
    tilePixels (fun c => g (ofWord c)) tw th (palette.map g) =
      (fun r => (r.1.map g, r.2.map g)) <$> tilePixels ofWord tw th palette := by
  simp only [tilePixels, map_bind]
  congr 1
  funext subencoding
  unfold tileBody
  split
  · simp [cpixels_map]
  · simp
  · rw [readPalette_map, bind_map_left, map_bind]
    congr 1
    funext palette
    split
    · rename_i bits _
      have h := repeatM_map (List.map g) (fun tile => packedRow_map g ofWord palette bits tw tile) th []
      rw [List.map_nil] at h
      rw [h, map_bind, bind_map_left]
      simp
    · rfl
  · simp [plainRle_map]
  · rw [readPalette_map, bind_map_left, map_bind]
    congr 1
    funext palette
    rw [paletteRle_map, map_bind, bind_map_left]
    simp

end Natural

/-! ## Where a pixel comes from -/

/-- A colour of the tile's own, or an entry of the array as the tile found it. -/
abbrev Mark := UInt32 ⊕ Nat

/-- The array before the tile. -/
def found : List Mark := (List.range 128).map .inr

/-- The tile's pixels as marks: a function of the tile's bytes. -/
def provenance (tw th : Nat) : Reader (List Mark) := (·.2) <$> tilePixels Sum.inl tw th found

/-- The palette size that a tile's bytes give. -/
def paletteSize (bs : List UInt8) : Nat := (bs.headD 0 &&& 0x7f).toNat

/-- What a mark stands for when the tile found `stale`. -/
def shown (stale : List UInt32) : Mark → UInt32 := Sum.elim id fun i => stale.getD i black

theorem found_map {stale : List UInt32} (h : stale.length = 128) : found.map (shown stale) = stale := by
  apply List.ext_getElem
  · simp [found, h]
  · intro i h1 h2
    simp [found, shown, h2]

theorem tilePixels_eq (tw th : Nat) {stale : List UInt32} (h : stale.length = 128) :
    tilePixels id tw th stale =
      (fun r => (r.1.map (shown stale), r.2.map (shown stale))) <$> tilePixels Sum.inl tw th found := by
  rw [← tilePixels_map, found_map h]
  rfl

section All

variable {β : Type} {ofWord : UInt32 → β} {P : β → Prop} (hword : ∀ c, P (ofWord c))

include hword

theorem entry_all {palette : List β} (hp : ∀ m ∈ palette, P m) (i : Nat) : P (entry ofWord palette i) := by
  rw [entry, List.getD_eq_getElem?_getD]
  cases h : palette[i]? with
  | none => exact hword black
  | some m => exact hp m (List.mem_of_getElem? h)

theorem sat_cpixels_all (n : Nat) : Sat (cpixels ofWord n) (fun cs => ∀ m ∈ cs, P m) fun _ => True := by
  refine Sat.repeatM _ (fun cs hcs => sat_cpixel.anyError.bind fun c _ => Sat.pure fun m hm => ?_) n (by simp)
  rcases List.mem_append.1 hm with h | h
  · exact hcs m h
  · exact List.mem_singleton.1 h ▸ hword c

theorem sat_readPalette_all {palette : List β} {size : Nat} (hdrop : ∀ m ∈ palette.drop size, P m) :
    Sat (readPalette ofWord size palette) (fun p => ∀ m ∈ p, P m) fun _ => True := by
  refine (sat_cpixels_all hword size).bind fun own hown => Sat.pure fun m hm => ?_
  rcases List.mem_append.1 hm with h | h
  · exact hown m h
  · exact hdrop m h

theorem sat_packedRow_all {palette : List β} (hp : ∀ m ∈ palette, P m) (bits tw : Nat) {tile : List β}
    (htile : ∀ m ∈ tile, P m) :
    Sat (packedRow ofWord palette bits tw tile) (fun tile => ∀ m ∈ tile, P m) fun _ => True := by
  refine (Sat.whileM_inv trivial (fun s => ∀ m ∈ s.2, P m) (fun s hs => ?_) tw htile).map fun _ hs => hs
  refine sat_tilesU8.anyError.bind fun byte _ => Sat.pure fun m hm => ?_
  rcases List.mem_append.1 hm with h | h
  · exact hs m h
  · obtain ⟨slot, -, rfl⟩ := List.mem_map.1 h
    exact entry_all hword hp _

omit hword in
theorem append_replicate_all {tile : List β} (htile : ∀ m ∈ tile, P m) (n : Nat) {c : β} (hc : P c) :
    ∀ m ∈ tile ++ List.replicate n c, P m := by
  intro m hm
  rcases List.mem_append.1 hm with h | h
  · exact htile m h
  · exact List.eq_of_mem_replicate h ▸ hc

/-- What holds of the tile's own colours and of the entries it does not
overwrite holds of its pixels. -/
theorem sat_tileBody_all {palette : List β} {size : Nat} (hdrop : ∀ m ∈ palette.drop size, P m) (tw th : Nat)
    (rle : Bool) :
    Sat (tileBody ofWord tw th palette rle size) (fun r => ∀ m ∈ r.2, P m) fun _ => True := by
  unfold tileBody
  split
  · exact (sat_cpixels_all hword _).bind fun _ h => Sat.pure h
  · exact sat_cpixel.anyError.bind fun c _ => Sat.pure fun m hm => List.eq_of_mem_replicate hm ▸ hword c
  · refine (sat_readPalette_all hword hdrop).bind fun p hp => ?_
    split
    · refine (Sat.repeatM (fun tile => ∀ m ∈ tile, P m) (fun tile htile => ?_) th (by simp)).bind fun _ h => Sat.pure h
      exact sat_packedRow_all hword hp _ tw htile
    · exact Sat.fail trivial
  · refine (Sat.whileM_inv trivial (fun tile => ∀ m ∈ tile, P m) (fun tile htile => ?_) _ (by simp)).bind
      fun _ h => Sat.pure h
    exact sat_cpixel.anyError.bind fun c _ => sat_runLength.anyError.bind fun run _ =>
      Sat.pure (append_replicate_all htile _ (hword c))
  · refine (sat_readPalette_all hword hdrop).bind fun p hp => ?_
    refine (Sat.whileM_inv trivial (fun tile => ∀ m ∈ tile, P m) (fun tile htile => ?_) _ (by simp)).bind
      fun _ h => Sat.pure h
    exact sat_tilesU8.anyError.bind fun index _ => (sat_indexRun index).anyError.bind fun run _ =>
      Sat.pure (append_replicate_all htile _ (entry_all hword hp _))

end All

/-- A pixel that is not the tile's own has an index the tile has no colour for. -/
theorem provenance_stale {tw th : Nat} {bs rest : List UInt8} {marks : List Mark}
    (h : provenance tw th bs = .ok (marks, rest)) (i : Nat) (hi : Sum.inr i ∈ marks) : paletteSize bs ≤ i := by
  obtain ⟨r, hr, rfl⟩ := map_eq_ok.1 h
  obtain ⟨b, mid, hb, hbody⟩ := bind_eq_ok.1 hr
  cases bs with
  | nil => cases hb
  | cons b' bs =>
    cases hb
    refine (sat_tileBody_all (P := fun m => ∀ i, m = Sum.inr i → (b &&& 0x7f).toNat ≤ i) (by simp) ?_ tw th _).of_ok
      hbody _ hi i rfl
    rintro _ hm i rfl
    obtain ⟨k, hk, hget⟩ := List.getElem_of_mem hm
    simp only [found, List.getElem_drop, List.getElem_map, List.getElem_range, Sum.inr.injEq] at hget
    omega

/-! ## The tiles of a picture -/

/-- The pixels of the tile `t` that are the tile's own are what its bytes say,
and the others have indices not below its palette size. -/
def OwnPixels (w : Nat) (t : Rect) (bs : List UInt8) (out : List UInt32) : Prop :=
  ∃ marks, provenance t.w t.h bs = .ok (marks, []) ∧ (∀ i, Sum.inr i ∈ marks → paletteSize bs ≤ i) ∧
    ∀ x y c, t.Mem x y → marks[(y - t.y) * t.w + (x - t.x)]? = some (.inl c) → out[y * w + x]? = some c

theorem local_zrleTile (w : Nat) (s : ZrleState) (t : Rect) : Local (zrleTile w s t) := by
  refine (local_tilePixels id t.w t.h s.palette).bind fun r => ?_
  split
  split
  · exact Local.fail _
  · refine Local.bind ?_ fun _ => Local.pure _
    cases blit s.out w t.x t.y t.w t.h _ with
    | none => exact Local.fail _
    | some out => exact Local.pure out

theorem zrleTile_own {w h : Nat} {t : Rect} (ht : t.Inside w h) {s s' : ZrleState} (hlen : s.out.length = w * h)
    (hp : s.palette.length = 128) {bs : List UInt8} (hr : Parses (zrleTile w s t) bs s') :
    OwnPixels w t bs s'.out := by
  have hrun : zrleTile w s t bs = .ok (s', []) := by simpa using hr []
  obtain ⟨⟨palette, tile⟩, mid, htile, hrest⟩ := bind_eq_ok.1 hrun
  have hsize : tile.length = t.w * t.h := ((sat_tilePixels id hp).of_ok htile).2
  obtain ⟨out, hblit, hpaint⟩ := blit_painted ht hlen fun x y => tile.getD (y * t.w + x) 0
  rw [← eq_raster_getD tile 0 hsize] at hblit
  simp only [hsize, Nat.lt_irrefl, if_false, hblit] at hrest
  cases hrest
  -- the same bytes, decoded to where each pixel is from instead of to its colour
  rw [tilePixels_eq t.w t.h hp] at htile
  obtain ⟨⟨_, marks⟩, hmarks, hshown⟩ := map_eq_ok.1 htile
  have hprov : provenance t.w t.h bs = .ok (marks, []) := map_eq_ok.2 ⟨_, hmarks, rfl⟩
  refine ⟨marks, hprov, provenance_stale hprov, fun x y c hm hc => ?_⟩
  have hx : x < w := ht.lt_of_mem hm
  have htile : marks.map (shown s.palette) = tile := (Prod.mk.inj hshown).2
  rw [hpaint.pixel x y hx, if_pos hm, ← htile, List.getD_eq_getElem?_getD, List.getElem?_map, hc]
  rfl

/-- Tiles that do not overlap, decoded one after another: each keeps its own
pixels to the end. -/
theorem chain_own {w h : Nat} {ts : List Rect} {s s' : ZrleState} {bs : List UInt8}
    (hc : Chain (fun s t used s' => Parses (zrleTile w s t) used s') s ts bs s') (hin : ∀ t ∈ ts, t.Inside w h)
    (hdis : ts.Pairwise fun t t' => ∀ x y, t.Mem x y → ¬ t'.Mem x y) (hlen : s.out.length = w * h)
    (hp : s.palette.length = 128) :
    (∀ x y, x < w → (∀ t ∈ ts, ¬ t.Mem x y) → s'.out[y * w + x]? = s.out[y * w + x]?) ∧
      ∃ pieces : List (Rect × List UInt8), pieces.map (·.1) = ts ∧ bs = pieces.flatMap (·.2) ∧
        ∀ p ∈ pieces, OwnPixels w p.1 p.2 s'.out := by
  induction hc with
  | nil s => exact ⟨fun _ _ _ _ => rfl, [], rfl, rfl, by simp⟩
  | @cons s s₁ s' t ts used bs hr _ ih =>
    have ht : t.Inside w h := hin t (by simp)
    obtain ⟨hframe, hp₁⟩ := (sat_zrleTile ht hlen hp).of_ok (hr [])
    obtain ⟨hdt, hdis⟩ := List.pairwise_cons.1 hdis
    obtain ⟨hkeep, pieces, hpieces, rfl, hown⟩ := ih (fun t ht => hin t (by simp [ht])) hdis
      (hframe.length.trans hlen) hp₁
    refine ⟨fun x y hx hout => ?_, (t, used) :: pieces, by simp [hpieces], by simp, ?_⟩
    · rw [hkeep x y hx fun t ht => hout t (by simp [ht]), hframe.pixel x y hx (hout t (by simp))]
    · intro p hmem
      rcases List.mem_cons.1 hmem with rfl | hmem
      · -- the tiles after this one are elsewhere and leave its pixels alone
        obtain ⟨marks, h1, h2, h3⟩ := zrleTile_own ht hlen hp hr
        refine ⟨marks, h1, h2, fun x y c hm hc => ?_⟩
        have hx : x < w := ht.lt_of_mem hm
        rw [hkeep x y hx fun t' ht' => hdt t' ht' x y hm]
        exact h3 x y c hm hc
      · exact hown p hmem

/-- In every payload that decodes, each tile has bytes of its own, and its pixels
are a function of these alone wherever its palette indices are below its palette
size. An index that is not is no error: a tile decodes whatever its indices are. -/
theorem zrle_tiles_own (w h : Nat) :
    (∀ payload out rest, zrleTiles w h payload = .ok (out, rest) →
      ∃ pieces : List (Rect × List UInt8), pieces.map (·.1) = Rect.grid w h 64 ∧
        payload = pieces.flatMap (·.2) ++ rest ∧ ∀ p ∈ pieces, OwnPixels w p.1 p.2 out) ∧
    (∀ tw (stale : List UInt32) palette rows bits bs, HasIndexBits palette.length bits →
      (∀ row ∈ rows, row.length = tw) → Chain (fun _ row bs _ => IsPackedRow bits row bs) () rows bs () →
      ∃ r, Parses (tilePixels id tw rows.length stale) (UInt8.ofNat palette.length :: (cpixelBytes palette ++ bs)) r) ∧
    (∀ tw th (stale : List UInt32) palette runs bs, 2 ≤ palette.length → palette.length ≤ 127 →
      Chain (IsPaletteRun (tw * th)) 0 runs bs (tw * th) →
      ∃ r, Parses (tilePixels id tw th stale) (UInt8.ofNat (128 + palette.length) ::
        (cpixelBytes palette ++ bs)) r) := by
  refine ⟨fun payload out rest hrun => ?_, fun tw stale palette rows bits bs hbits htw hc => ?_,
    fun tw th stale palette runs bs h2 h127 hc => ?_⟩
  · obtain ⟨s, hs, rfl⟩ := map_eq_ok.1 hrun
    obtain ⟨used, rfl, hc⟩ := Local.foldlM_chain (local_zrleTile w) hs
    obtain ⟨-, pieces, hpieces, rfl, hown⟩ := chain_own hc (fun t => Rect.grid_inside (by decide))
      (Rect.grid_disjoint w h 64)
      (by simp) (by simp)
    exact ⟨pieces, hpieces, rfl, hown⟩
  · exact ⟨_, parses_tilePixels_packed id stale hbits rfl htw hc⟩
  · exact ⟨_, parses_tilePixels_paletteRle id stale h2 h127 hc⟩

/-- Two tiles of one pixel column and a row of 64. -/
theorem zrle_tiles_own_two : ∃ pieces : List (Rect × List UInt8), pieces.map (·.1) = Rect.grid 65 1 64 ∧
    [1, 5, 6, 7, 130, 9, 9, 9, 8, 8, 8, 1] = pieces.flatMap (·.2) ++ [] ∧
    ∀ p ∈ pieces, OwnPixels 65 p.1 p.2 (List.replicate 64 (pack ⟨5, 6, 7⟩) ++ [pack ⟨8, 8, 8⟩]) :=
  (zrle_tiles_own 65 1).1 _ _ _ (by decide)

/-- The second tile's bytes are the same in both, and its one pixel is not: index
2 of its two colours shows the first tile's third. -/
theorem stale_entry_shown :
    (zrleTiles 65 1 ([131, 1, 1, 1, 2, 2, 2, 3, 3, 3, 0x80, 63] ++ [130, 9, 9, 9, 8, 8, 8, 2])).map
        (fun r => (r.1[64]?, r.2)) =
      .ok (some (pack ⟨3, 3, 3⟩), []) ∧
    (zrleTiles 65 1 ([131, 1, 1, 1, 2, 2, 2, 4, 4, 4, 0x80, 63] ++ [130, 9, 9, 9, 8, 8, 8, 2])).map
        (fun r => (r.1[64]?, r.2)) =
      .ok (some (pack ⟨4, 4, 4⟩), []) ∧ pack ⟨3, 3, 3⟩ ≠ pack ⟨4, 4, 4⟩ := by
  decide

end Vento.Rfb.Decode
