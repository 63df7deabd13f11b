import Mathlib.Data.Nat.Cast.Basic
import Vento.Rfb.Encodings
import Vento.Rfb.Zrle
/-!
# Valid ZRLE encodings

What a server may send for the tiles of a picture, every choice the format
leaves to it open: the subencoding of each tile, the order and repetition of
palette colours, the padding bits of a packed row, and how runs are split.
Decoding inverts all of them, and none of them decompresses to more than the
decoder allows.
-/

namespace Vento.Rfb

open Vento.Lib Parser Decode

/-! ## The encodings -/

/-- The three wire bytes of each colour. -/
def cpixelBytes (cs : List Rgb) : List UInt8 := cs.flatMap fun c => [c.r, c.g, c.b]

/-- The length of a run, less one, in instalments of 255. -/
def runBytes (k : Nat) : List UInt8 := List.replicate ((k - 1) / 255) 255 ++ [UInt8.ofNat ((k - 1) % 255)]

/-- The number of bits of an index into a packed palette. -/
def HasIndexBits (size bits : Nat) : Prop :=
  (size = 2 ∧ bits = 1) ∨ (3 ≤ size ∧ size ≤ 4 ∧ bits = 2) ∨ (5 ≤ size ∧ size ≤ 16 ∧ bits = 4)

/-- A byte of indices of `bits` bits, the first in the highest. -/
def byteOf (bits : Nat) (indices : List Nat) : UInt8 :=
  UInt8.ofNat (indices.foldl (fun n i => n * 2 ^ bits + i) 0)

/-- A row of packed indices. Its last byte may be padded, with anything. -/
inductive IsPackedRow (bits : Nat) : List Nat → List UInt8 → Prop
  | nil : IsPackedRow bits [] []
  | cons {chunk pad row : List Nat} {bs : List UInt8} :
    chunk ≠ [] → (pad ≠ [] → row = []) → (chunk ++ pad).length = 8 / bits → (∀ i ∈ chunk ++ pad, i < 2 ^ bits) →
    IsPackedRow bits row bs → IsPackedRow bits (chunk ++ row) (byteOf bits (chunk ++ pad) :: bs)

/-- A run of plain RLE, after `k` of the tile's `n` pixels. -/
def IsPlainRun (n k : Nat) (run : Rgb × Nat) (bs : List UInt8) (k' : Nat) : Prop :=
  0 < run.2 ∧ k' = k + run.2 ∧ k' ≤ n ∧ bs = cpixelBytes [run.1] ++ runBytes run.2

/-- A run of palette RLE: an index alone for a single pixel, or marked and
followed by the length. -/
def IsPaletteRun (n k : Nat) (run : Nat × Nat) (bs : List UInt8) (k' : Nat) : Prop :=
  run.1 < 128 ∧ 0 < run.2 ∧ k' = k + run.2 ∧ k' ≤ n ∧
    (run.2 = 1 ∧ bs = [UInt8.ofNat run.1] ∨ bs = UInt8.ofNat (128 + run.1) :: runBytes run.2)

/-- A `tw × th` tile of the pixels `cs`, row by row. Where the tile has a
palette, every pixel's index is one of its entries. -/
inductive IsZrleTile (tw th : Nat) : List Rgb → List UInt8 → Prop
  | raw {cs : List Rgb} : cs.length = tw * th → IsZrleTile tw th cs (0 :: cpixelBytes cs)
  | solid (c : Rgb) : IsZrleTile tw th (List.replicate (tw * th) c) (1 :: cpixelBytes [c])
  | packed {palette cs : List Rgb} {rows : List (List Nat)} {bits : Nat} {bs : List UInt8} :
    HasIndexBits palette.length bits → rows.length = th → (∀ row ∈ rows, row.length = tw) →
    Chain (fun _ row bs _ => IsPackedRow bits row bs) () rows bs () →
    cs.map some = rows.flatten.map (palette[·]?) →
    IsZrleTile tw th cs (UInt8.ofNat palette.length :: (cpixelBytes palette ++ bs))
  | plainRle {runs : List (Rgb × Nat)} {bs : List UInt8} :
    Chain (IsPlainRun (tw * th)) 0 runs bs (tw * th) →
    IsZrleTile tw th (runs.flatMap fun run => List.replicate run.2 run.1) (128 :: bs)
  | paletteRle {palette cs : List Rgb} {runs : List (Nat × Nat)} {bs : List UInt8} :
    2 ≤ palette.length → palette.length ≤ 127 → Chain (IsPaletteRun (tw * th)) 0 runs bs (tw * th) →
    cs.map some = (runs.flatMap fun run => List.replicate run.2 run.1).map (palette[·]?) →
    IsZrleTile tw th cs (UInt8.ofNat (128 + palette.length) :: (cpixelBytes palette ++ bs))

/-- The tiles of a `w × h` picture. -/
def AreZrleTiles (w h : Nat) (img : Nat → Nat → Rgb) (bs : List UInt8) : Prop :=
  Chain (fun _ t bs _ => IsZrleTile t.w t.h (raster t.w t.h fun x y => img (t.x + x) (t.y + y)) bs) ()
    (Rect.grid w h 64) bs ()

/-! ## What the pieces parse to -/

theorem parses_cpixel (c : Rgb) : Parses cpixel (cpixelBytes [c]) (pack c) := fun _ => rfl

theorem parses_cpixels {β : Type} (ofWord : UInt32 → β) (cs : List Rgb) :
    Parses (cpixels ofWord cs.length) (cpixelBytes cs) (cs.map fun c => ofWord (pack c)) := by
  have hc : Chain (fun _ c bs _ => bs = cpixelBytes [c]) () cs (cpixelBytes cs) () := .flatMap fun _ _ => rfl
  refine hc.parses_collect (fun c => ofWord (pack c)) fun done c _ _ bs _ hbs => ?_
  subst hbs
  exact (parses_cpixel c).bind_last (Parses.pure _)

theorem runLengthFrom_replicate (total m : Nat) (b : UInt8) (hb : b ≠ 255) (rest : List UInt8) :
    runLengthFrom total (List.replicate m 255 ++ b :: rest) = .ok (total + 255 * m + b.toNat, rest) := by
  induction m generalizing total with
  | zero => simp [runLengthFrom, hb]
  | succ m ih =>
    rw [List.replicate_succ, List.cons_append, runLengthFrom, if_neg (by simp), ih]
    simp only [Except.ok.injEq, Prod.mk.injEq, and_true]
    show total + 255 + 255 * m + b.toNat = _
    omega

theorem parses_runLength {k : Nat} (hk : 0 < k) : Parses runLength (runBytes k) k := by
  intro rest
  have hlt : (k - 1) % 255 < 255 := Nat.mod_lt _ (by decide)
  have hb : (UInt8.ofNat ((k - 1) % 255)).toNat = (k - 1) % 255 := UInt8.toNat_ofNat_of_lt' (by show _ < 256; omega)
  have hne : UInt8.ofNat ((k - 1) % 255) ≠ 255 := by
    intro h
    have := congrArg UInt8.toNat h
    rw [hb] at this
    exact absurd this (by show (k - 1) % 255 ≠ 255; omega)
  rw [runBytes, List.append_assoc, List.singleton_append, runLength, runLengthFrom_replicate _ _ _ hne, hb]
  simp only [Except.ok.injEq, Prod.mk.injEq, and_true]
  omega

/-! ## Packed rows -/

theorem packedIndex_byteOf {bits : Nat} (hbits : bits = 1 ∨ bits = 2 ∨ bits = 4) {indices : List Nat}
    (hlen : indices.length = 8 / bits) (hlt : ∀ i ∈ indices, i < 2 ^ bits) {slot : Nat}
    (hslot : slot < indices.length) :
    packedIndex bits (byteOf bits indices) slot = indices[slot] := by
  have h8 : bits * indices.length = 8 := by
    rw [hlen]
    rcases hbits with rfl | rfl | rfl <;> rfl
  have hval : indices.foldl (fun n i => n * 2 ^ bits + i) 0 < 2 ^ 8 := by
    have := foldl_digits_lt indices hlt
    rwa [← Nat.pow_mul, h8] at this
  have hshift : 8 - bits * (slot + 1) = bits * (indices.length - 1 - slot) := by
    rw [← h8, ← Nat.mul_sub]
    congr 1
    omega
  have hmask : (UInt8.ofNat (2 ^ bits - 1)).toNat = 2 ^ bits - 1 := by
    rcases hbits with rfl | rfl | rfl <;> rfl
  have hshift8 : (UInt8.ofNat (8 - bits * (slot + 1))).toNat % 8 = 8 - bits * (slot + 1) := by
    have : 8 - bits * (slot + 1) < 8 := by
      have : 0 < bits * (slot + 1) := Nat.mul_pos (by omega) (by omega)
      omega
    rw [UInt8.toNat_ofNat_of_lt' (by show _ < 256; omega), Nat.mod_eq_of_lt this]
  simp only [packedIndex]
  rw [UInt8.toNat_and, UInt8.toNat_shiftRight, hshift8, hmask, byteOf, UInt8.toNat_ofNat_of_lt' hval,
    Nat.and_two_pow_sub_one_eq_mod, Nat.shiftRight_eq_div_pow, hshift, Nat.pow_mul, digit_foldl indices hlt hslot]

section Tile

variable {β : Type} (ofWord : UInt32 → β)

/-- The pixels of a byte's indices, less those that pad it. -/
theorem packed_chunk {bits : Nat} (hbits : bits = 1 ∨ bits = 2 ∨ bits = 4) (palette : List β) {chunk pad : List Nat}
    (hlen : (chunk ++ pad).length = 8 / bits) (hlt : ∀ i ∈ chunk ++ pad, i < 2 ^ bits) :
    (List.range chunk.length).map (fun slot =>
        entry ofWord palette (packedIndex bits (byteOf bits (chunk ++ pad)) slot)) =
      chunk.map (entry ofWord palette) := by
  apply List.ext_getElem
  · simp
  · intro slot h1 h2
    have hslot : slot < chunk.length := by simpa using h2
    rw [List.getElem_map, List.getElem_map, List.getElem_range,
      packedIndex_byteOf hbits hlen hlt (by rw [List.length_append]; omega), List.getElem_append_left hslot]

theorem parses_packedRow {bits : Nat} (hbits : bits = 1 ∨ bits = 2 ∨ bits = 4) (palette : List β) {row : List Nat}
    {bs : List UInt8} (he : IsPackedRow bits row bs) (tile : List β) :
    Parses (packedRow ofWord palette bits row.length tile) bs (tile ++ row.map (entry ofWord palette)) := by
  suffices h : ∀ tw fuel col tile, col + row.length = tw → row.length ≤ fuel →
      Parses (whileM .hangs (fun s : Nat × List β => s.1 < tw)
        (fun s => do
          let byte ← tilesU8
          let taken := min (8 / bits) (tw - s.1)
          return (s.1 + taken,
            s.2 ++ (List.range taken).map fun slot => entry ofWord palette (packedIndex bits byte slot)))
        fuel (col, tile)) bs (tw, tile ++ row.map (entry ofWord palette)) from
    (h row.length row.length 0 tile (Nat.zero_add _) (Nat.le_refl _)).map (·.2)
  intro tw fuel col tile hcol hfuel
  induction he generalizing fuel col tile with
  | nil =>
    obtain rfl : col = tw := hcol
    rw [List.map_nil, List.append_nil]
    cases fuel <;> simpa [whileM] using Parses.pure (col, tile)
  | @cons chunk pad row bs hne hpad hlen hlt _ ih =>
    have hpos : 0 < chunk.length := List.length_pos_iff.2 hne
    have hlen' : chunk.length + pad.length = 8 / bits := by simpa using hlen
    rw [List.length_append] at hcol hfuel
    -- only the last byte of a row is padded, where the row has no more to take
    have htaken : min (8 / bits) (tw - col) = chunk.length := by
      rcases Decidable.em (pad = []) with rfl | hp
      · simp only [List.length_nil] at hlen'
        omega
      · rw [hpad hp, List.length_nil] at hcol
        omega
    cases fuel with
    | zero => omega
    | succ fuel =>
      rw [whileM, if_pos (by simp only [decide_eq_true_eq]; omega), bind_assoc]
      refine Parses.next_bind ?_
      simp only [htaken, packed_chunk ofWord hbits palette hlen hlt, pure_bind]
      rw [List.map_append, ← List.append_assoc]
      exact ih fuel _ _ (by omega) (by omega)

/-! ## Runs -/

/-- Both run-length loops, on runs that fill the tile exactly. -/
theorem parses_runs {ρ : Type} {R : Nat → ρ → List UInt8 → Nat → Prop} {n : Nat} {body : List β → Reader (List β)}
    (len : ρ → Nat) (colour : ρ → β) (hR : ∀ k run bs k', R k run bs k' → 0 < len run ∧ k' = k + len run ∧ k' ≤ n)
    (hbody : ∀ tile k run bs k', R k run bs k' →
      Parses (body tile) bs (tile ++ List.replicate (min (len run) (n - tile.length)) (colour run)))
    {runs : List ρ} {bs : List UInt8} (hc : Chain R 0 runs bs n) :
    Parses (whileM .hangs (fun tile => tile.length < n) body n []) bs
      (runs.flatMap fun run => List.replicate (len run) (colour run)) := by
  have hfuel : runs.length ≤ n := by
    have := hc.length_le fun k run bs k' hr => by
      have := hR k run bs k' hr
      omega
    omega
  obtain ⟨tile, hp, rfl, -⟩ : ∃ tile, Parses (whileM Failure.hangs (fun tile => tile.length < n) body n []) bs tile ∧
      tile = runs.flatMap (fun run => List.replicate (len run) (colour run)) ∧ tile.length = n := hc.parses_whileM
    (fun done k tile => tile = done.flatMap (fun run => List.replicate (len run) (colour run)) ∧ tile.length = k)
    (by
      rintro done k run bs k' tile ⟨htile, hk⟩ hr
      obtain ⟨hpos, hk', hn⟩ := hR k run bs k' hr
      refine ⟨by simp only [decide_eq_true_eq]; omega, _, hbody tile k run bs k' hr, ?_, ?_⟩
      · rw [Nat.min_eq_left (by omega), htile]
        simp
      · simp only [List.length_append, List.length_replicate]
        omega)
    (by
      rintro done tile ⟨-, hk⟩
      simp [hk])
    [] hfuel ⟨rfl, rfl⟩
  exact hp

theorem parses_plainRle {n : Nat} {runs : List (Rgb × Nat)} {bs : List UInt8} (hc : Chain (IsPlainRun n) 0 runs bs n) :
    Parses (plainRle ofWord n) bs (runs.flatMap fun run => List.replicate run.2 (ofWord (pack run.1))) := by
  refine parses_runs (·.2) (fun run => ofWord (pack run.1)) ?_ ?_ hc
  · rintro k run bs k' ⟨h1, h2, h3, -⟩
    exact ⟨h1, h2, h3⟩
  · rintro tile k run _ k' ⟨hpos, -, -, rfl⟩
    exact (parses_cpixel run.1).bind ((parses_runLength hpos).bind_last (Parses.pure _))

/-- A seven-bit field under a flag. -/
theorem low_bits : ∀ n < 128, UInt8.ofNat n &&& 0x80 = 0 ∧ (UInt8.ofNat n &&& 0x7f).toNat = n ∧
    UInt8.ofNat (128 + n) &&& 0x80 ≠ 0 ∧ (UInt8.ofNat (128 + n) &&& 0x7f).toNat = n := by
  decide

/-- The indices may be any: what they stand for is up to the palette array. -/
theorem parses_paletteRle (palette : List β) {n : Nat} {runs : List (Nat × Nat)} {bs : List UInt8}
    (hc : Chain (IsPaletteRun n) 0 runs bs n) :
    Parses (paletteRle ofWord palette n) bs
      (runs.flatMap fun run => List.replicate run.2 (entry ofWord palette run.1)) := by
  refine parses_runs (·.2) (fun run => entry ofWord palette run.1) ?_ ?_ hc
  · rintro k run bs k' ⟨-, h1, h2, h3, -⟩
    exact ⟨h1, h2, h3⟩
  · rintro tile k run bs k' ⟨hlt, hpos, -, -, hbs⟩
    obtain ⟨h1, h2, h3, h4⟩ := low_bits run.1 hlt
    rcases hbs with ⟨hone, rfl⟩ | rfl
    · refine (Parses.next ranOut _).bind_last (Parses.bind_nil (a := 1) ?_ ?_)
      · rw [indexRun, if_neg (by simp [h1])]
        exact Parses.pure 1
      · rw [h2, hone]
        exact Parses.pure _
    · refine Parses.next_bind (Parses.bind_last (a := run.2) ?_ ?_)
      · rw [indexRun, if_pos h3]
        exact parses_runLength hpos
      · rw [h4]
        exact Parses.pure _

/-! ## Tiles -/

/-- The palette array once a tile has given its own colours. -/
def withPalette (stale : List β) (palette : List Rgb) : List β :=
  palette.map (fun c => ofWord (pack c)) ++ stale.drop palette.length

theorem parses_readPalette (palette : List Rgb) (stale : List β) :
    Parses (readPalette ofWord palette.length stale) (cpixelBytes palette) (withPalette ofWord stale palette) :=
  (parses_cpixels ofWord palette).bind_last (Parses.pure _)

/-- Indices that are all in the tile's own palette. -/
theorem map_entry (stale : List β) {palette cs : List Rgb} {indices : List Nat}
    (h : cs.map some = indices.map (palette[·]?)) :
    indices.map (entry ofWord (withPalette ofWord stale palette)) = cs.map fun c => ofWord (pack c) := by
  induction indices generalizing cs with
  | nil =>
    have : cs = [] := by simpa using h
    simp [this]
  | cons i indices ih =>
    cases cs with
    | nil => simp at h
    | cons c cs =>
      simp only [List.map_cons, List.cons.injEq] at h
      rw [List.map_cons, List.map_cons, ih h.2]
      obtain ⟨hlt, hget⟩ := List.getElem?_eq_some_iff.1 h.1.symm
      rw [entry, withPalette, List.getD_eq_getElem?_getD, List.getElem?_append_left (by simpa using hlt)]
      simp [hlt, hget]

theorem HasIndexBits.bits {size bits : Nat} (h : HasIndexBits size bits) : bits = 1 ∨ bits = 2 ∨ bits = 4 := by
  rcases h with ⟨-, h⟩ | ⟨-, -, h⟩ | ⟨-, -, h⟩ <;> simp [h]

theorem HasIndexBits.size {size bits : Nat} (h : HasIndexBits size bits) : 2 ≤ size ∧ size ≤ 16 := by
  unfold HasIndexBits at h
  omega

theorem HasIndexBits.eq_some {size bits : Nat} (h : HasIndexBits size bits) : indexBits size = some bits := by
  unfold indexBits
  rcases h with ⟨h, rfl⟩ | ⟨h, h', rfl⟩ | ⟨h, h', rfl⟩
  · rw [if_pos h]
  · rw [if_neg (by omega), if_pos ⟨h, h'⟩]
  · rw [if_neg (by omega), if_neg (by omega), if_pos ⟨h, h'⟩]

theorem tileBody_packed (tw th : Nat) (stale : List β) {size bits : Nat} (h2 : 2 ≤ size)
    (hbits : indexBits size = some bits) : tileBody ofWord tw th stale false size = (do
      let palette ← readPalette ofWord size stale
      let tile ← repeatM th (packedRow ofWord palette bits tw) []
      return (palette, tile)) := by
  match size, h2, hbits with
  | n + 2, _, hbits => simp only [tileBody, hbits]

theorem tileBody_paletteRle (tw th : Nat) (stale : List β) {size : Nat} (h2 : 2 ≤ size) :
    tileBody ofWord tw th stale true size = (do
      let palette ← readPalette ofWord size stale
      let tile ← paletteRle ofWord palette (tw * th)
      return (palette, tile)) := by
  match size, h2 with
  | n + 2, _ => rfl

/-- A packed tile, whatever its indices. -/
theorem parses_tilePixels_packed (stale : List β) {tw th bits : Nat} {palette : List Rgb} {rows : List (List Nat)}
    {bs : List UInt8} (hbits : HasIndexBits palette.length bits) (hth : rows.length = th)
    (htw : ∀ row ∈ rows, row.length = tw) (hc : Chain (fun _ row bs _ => IsPackedRow bits row bs) () rows bs ()) :
    Parses (tilePixels ofWord tw th stale) (UInt8.ofNat palette.length :: (cpixelBytes palette ++ bs))
      (withPalette ofWord stale palette, rows.flatten.map (entry ofWord (withPalette ofWord stale palette))) := by
  obtain ⟨h2, h16⟩ := hbits.size
  obtain ⟨hflag, hsize, -, -⟩ := low_bits palette.length (by omega)
  refine Parses.next_bind ?_
  rw [hsize, decide_eq_false (by simp [hflag])]
  obtain ⟨tile, hp, rfl⟩ := hc.parses_repeatM (s := [])
    (f := packedRow ofWord (withPalette ofWord stale palette) bits tw)
    (fun done _ tile => tile = done.flatten.map (entry ofWord (withPalette ofWord stale palette)))
    (by
      rintro done row hrow - bs - _ rfl hpacked
      refine ⟨_, htw row hrow ▸ parses_packedRow ofWord hbits.bits _ hpacked _, by simp⟩)
    rfl
  rw [tileBody_packed ofWord tw th stale h2 hbits.eq_some, ← hth]
  exact (parses_readPalette ofWord palette stale).bind (hp.bind_last (Parses.pure _))

/-- A palette RLE tile, whatever its indices. -/
theorem parses_tilePixels_paletteRle (stale : List β) {tw th : Nat} {palette : List Rgb} {runs : List (Nat × Nat)}
    {bs : List UInt8} (h2 : 2 ≤ palette.length) (h127 : palette.length ≤ 127)
    (hc : Chain (IsPaletteRun (tw * th)) 0 runs bs (tw * th)) :
    Parses (tilePixels ofWord tw th stale) (UInt8.ofNat (128 + palette.length) :: (cpixelBytes palette ++ bs))
      (withPalette ofWord stale palette, (runs.flatMap fun run => List.replicate run.2 run.1).map
        (entry ofWord (withPalette ofWord stale palette))) := by
  obtain ⟨-, -, hflag, hsize⟩ := low_bits palette.length (by omega)
  refine Parses.next_bind ?_
  rw [hsize, decide_eq_true hflag]
  rw [tileBody_paletteRle ofWord tw th stale h2]
  refine (parses_readPalette ofWord palette stale).bind (Parses.bind_last (parses_paletteRle ofWord _ hc) ?_)
  simp only [List.map_flatMap, List.map_replicate]
  exact Parses.pure _

theorem parses_tilePixels (stale : List β) {tw th : Nat} {cs : List Rgb} {bs : List UInt8}
    (he : IsZrleTile tw th cs bs) :
    ∃ palette, Parses (tilePixels ofWord tw th stale) bs (palette, cs.map fun c => ofWord (pack c)) := by
  cases he with
  | raw hlen =>
    refine ⟨stale, Parses.next_bind (Parses.bind_last ?_ (Parses.pure _))⟩
    exact hlen ▸ parses_cpixels ofWord cs
  | solid c =>
    refine ⟨stale, Parses.next_bind (Parses.bind_last (parses_cpixel c) ?_)⟩
    rw [List.map_replicate]
    exact Parses.pure _
  | packed hbits hth htw hc hcs =>
    exact ⟨_, map_entry ofWord stale hcs ▸ parses_tilePixels_packed ofWord stale hbits hth htw hc⟩
  | plainRle hc =>
    refine ⟨stale, Parses.next_bind (Parses.bind_last (parses_plainRle ofWord hc) ?_)⟩
    simp only [List.map_flatMap, List.map_replicate]
    exact Parses.pure _
  | paletteRle h2 h127 hc hcs =>
    exact ⟨_, map_entry ofWord stale hcs ▸ parses_tilePixels_paletteRle ofWord stale h2 h127 hc⟩

end Tile

/-! ## The rectangle -/

theorem parses_zrleTile {w h : Nat} {img : Nat → Nat → Rgb} {t : Rect} (ht : t.Inside w h) {s : ZrleState}
    (hlen : s.out.length = w * h) {bs : List UInt8}
    (he : IsZrleTile t.w t.h (raster t.w t.h fun x y => img (t.x + x) (t.y + y)) bs) :
    ∃ s', Parses (zrleTile w s t) bs s' ∧ Painted w t (fun x y => pack (img x y)) s.out s'.out := by
  obtain ⟨palette, hp⟩ := parses_tilePixels id s.palette he
  rw [raster_map] at hp
  obtain ⟨out, hblit, hpaint⟩ := blit_painted ht hlen fun x y => id (pack (img (t.x + x) (t.y + y)))
  refine ⟨⟨out, palette⟩, hp.bind_last ?_, hpaint.congr fun x y hm => ?_⟩
  · simp only [raster_length, Nat.lt_irrefl, if_false, hblit]
    exact Parses.bind_nil (Parses.pure out) (Parses.pure _)
  · simp only [Rect.Mem] at hm
    rw [show t.x + (x - t.x) = x by omega, show t.y + (y - t.y) = y by omega]
    rfl

theorem parses_zrleTiles {w h : Nat} {img : Nat → Nat → Rgb} {bs : List UInt8} (he : AreZrleTiles w h img bs) :
    Parses (zrleTiles w h) bs (raster w h fun x y => pack (img x y)) := by
  obtain ⟨s, hp, heq⟩ := parses_tiles (by decide) (fun x y => pack (img x y)) (f := zrleTile w) ZrleState.out
    (fun _ _ => True) he
    (fun t ht _ bs _ s hlen _ htile => by
      obtain ⟨s', hp, hp'⟩ := parses_zrleTile (Rect.grid_inside (by decide) ht) hlen htile
      exact ⟨s', hp, hp', trivial⟩)
    (s := ⟨List.replicate (w * h) black, List.replicate 128 0⟩) (by simp) trivial
  rw [← heq]
  exact hp.map _

/-! ## How long they are -/

theorem cpixelBytes_length (cs : List Rgb) : (cpixelBytes cs).length = 3 * cs.length := by
  induction cs with
  | nil => rfl
  | cons c cs ih =>
    rw [cpixelBytes, List.flatMap_cons, List.length_append, ← cpixelBytes, ih]
    simp only [List.length_cons, List.length_nil]
    omega

theorem runBytes_length (k : Nat) : (runBytes k).length = (k - 1) / 255 + 1 := by
  simp [runBytes]

theorem IsPackedRow.length_le {bits : Nat} {row : List Nat} {bs : List UInt8} (h : IsPackedRow bits row bs) :
    bs.length ≤ row.length := by
  induction h with
  | nil => exact Nat.le_refl _
  | @cons chunk pad row bs hne _ _ _ _ ih =>
    have : 0 < chunk.length := List.length_pos_iff.2 hne
    simp only [List.length_cons, List.length_append]
    omega

theorem IsZrleTile.length_le {tw th : Nat} {cs : List Rgb} {bs : List UInt8} (h : IsZrleTile tw th cs bs) :
    bs.length ≤ 4 * (tw * th) + (1 + 128 * 3) := by
  cases h with
  | raw hlen =>
    rw [List.length_cons, cpixelBytes_length, hlen]
    omega
  | solid c =>
    rw [List.length_cons, cpixelBytes_length]
    simp only [List.length_singleton]
    omega
  | @packed palette cs rows bits bs hbits hth htw hc _ =>
    have hrows : bs.length ≤ th * tw := by
      have := hc.bytes_le_sum (fun _ => tw) fun row hrow _ bs _ he => htw row hrow ▸ he.length_le
      simpa [hth, Nat.cast_id] using this
    rw [Nat.mul_comm th tw] at hrows
    have := hbits.size
    rw [List.length_cons, List.length_append, cpixelBytes_length]
    omega
  | plainRle hc =>
    have := hc.bytes_le (fun k => 4 * k) fun k run bs k' hr => by
      obtain ⟨h1, h2, -, rfl⟩ := hr
      simp only [List.length_append, cpixelBytes_length, runBytes_length, List.length_singleton]
      omega
    rw [List.length_cons]
    omega
  | paletteRle h2 h127 hc _ =>
    have := hc.bytes_le (fun k => 4 * k) fun k run bs k' hr => by
      obtain ⟨-, h1, h2, -, ⟨-, rfl⟩ | rfl⟩ := hr
      · simp only [List.length_singleton]
        omega
      · simp only [List.length_cons, runBytes_length]
        omega
    rw [List.length_cons, List.length_append, cpixelBytes_length]
    omega

theorem AreZrleTiles.length_le {w h : Nat} {img : Nat → Nat → Rgb} {bs : List UInt8} (he : AreZrleTiles w h img bs) :
    bs.length ≤ zrleLimit w h := by
  have hsum := Chain.bytes_le_sum (fun t : Rect => 4 * (t.w * t.h) + (1 + 128 * 3)) he fun t _ _ bs _ ht => ht.length_le
  have htotal : ((Rect.grid w h 64).map fun t : Rect => 4 * (t.w * t.h) + (1 + 128 * 3)).sum =
      4 * (w * h) + (w + 63) / 64 * ((h + 63) / 64) * (1 + 128 * 3) := by
    rw [List.sum_map_add, List.sum_map_mul_left, Rect.sum_area_grid (by decide)]
    simp [Rect.grid_length, Rect.steps_length]
  simp only [zrleLimit]
  omega

theorem parses_zrle {z : Codec} {w h : Nat} {img : Nat → Nat → Rgb} {plain bs : List UInt8} {srv srv' : z.Server}
    {s : z.State} (he : AreZrleTiles w h img plain) (hs : z.Sync srv s [] []) (hd : z.Deflates srv plain bs srv')
    (hlen : bs.length ≤ maxZrleLength) :
    ∃ s', z.Sync srv' s' [] [] ∧ Parses (zrle z.toFlate s w h) (toBeBytes 4 bs.length ++ bs)
      (s', raster w h fun x y => pack (img x y)) := by
  obtain ⟨s', hinflate, hs'⟩ := Codec.inflate_deflated hs hd he.length_le
  refine ⟨s', hs', ?_⟩
  have hmax : maxZrleLength < 2 ^ 32 := by decide
  refine (parses_u32 (by omega)).bind ?_
  rw [if_neg (by omega)]
  have hall : zrleTiles w h plain = .ok (raster w h fun x y => pack (img x y), []) := by
    simpa using parses_zrleTiles he []
  exact (parses_bytes bs).bind_last
    (Parses.bind_nil (Parses.lift hinflate) (Parses.bind_nil (Parses.lift hall) (Parses.pure _)))

/-- Decoding inverts every valid encoding that the server deflates to no more
than the decoder takes: the rectangle's bytes are read, all of them and of what
they inflate to, and the two ends of the stream stay together. What they inflate
to is within the limit. -/
theorem zrle_inverts {z : Codec} {w h : Nat} {img : Nat → Nat → Rgb} {plain bs : List UInt8} {srv srv' : z.Server}
    {s : z.State} (he : AreZrleTiles w h img plain) (hs : z.Sync srv s [] []) (hd : z.Deflates srv plain bs srv')
    (hlen : bs.length ≤ maxZrleLength) :
    (∃ s', z.Sync srv' s' [] [] ∧ Parses (zrle z.toFlate s w h) (toBeBytes 4 bs.length ++ bs)
      (s', raster w h fun x y => pack (img x y))) ∧
    Parses (zrleTiles w h) plain (raster w h fun x y => pack (img x y)) ∧
    plain.length ≤ zrleLimit w h :=
  ⟨parses_zrle he hs hd hlen, parses_zrleTiles he, he.length_le⟩

/-! ## A server that sends more -/

/-- Every tile raw. -/
def rawTiles (w h : Nat) (img : Nat → Nat → Rgb) : List UInt8 :=
  (Rect.grid w h 64).flatMap fun t => 0 :: cpixelBytes (raster t.w t.h fun x y => img (t.x + x) (t.y + y))

theorem areZrleTiles_rawTiles (w h : Nat) (img : Nat → Nat → Rgb) : AreZrleTiles w h img (rawTiles w h img) := by
  unfold AreZrleTiles rawTiles
  induction Rect.grid w h 64 with
  | nil => exact .nil ()
  | cons t ts ih => exact .cons (.raw (by simp)) ih

theorem rawTiles_length (w h : Nat) (img : Nat → Nat → Rgb) :
    (rawTiles w h img).length = 3 * (w * h) + (w + 63) / 64 * ((h + 63) / 64) := by
  have hgrid : (Rect.grid w h 64).length = (w + 63) / 64 * ((h + 63) / 64) := by
    simp [Rect.grid_length, Rect.steps_length]
  rw [← hgrid, ← Rect.sum_area_grid (w := w) (h := h) (by decide : 0 < 64)]
  unfold rawTiles
  induction Rect.grid w h 64 with
  | nil => rfl
  | cons t ts ih =>
    simp only [List.flatMap_cons, List.length_append, List.length_cons, ih, cpixelBytes_length, raster_length,
      List.map_cons, List.sum_cons]
    omega

/-- The largest desktop, all raw and stored: a valid encoding over the 64 MiB
that `zrle` takes. -/
theorem long_zrle_refused : ∃ plain bs, AreZrleTiles 8192 4096 (fun _ _ => ⟨0, 0, 0⟩) plain ∧
    storedCodec.Sync .cmf .cmf [] [] ∧ storedCodec.Deflates .cmf plain bs .block ∧
    zrle storedCodec.toFlate .cmf 8192 4096 (toBeBytes 4 bs.length ++ bs) =
      .error (.error (.protocol s!"ZRLE rectangle of {bs.length} bytes")) := by
  obtain ⟨plain, hplain, hraw⟩ : ∃ plain, AreZrleTiles 8192 4096 (fun _ _ => ⟨0, 0, 0⟩) plain ∧
      plain.length = 3 * (8192 * 4096) + (8192 + 63) / 64 * ((4096 + 63) / 64) :=
    ⟨_, areZrleTiles_rawTiles 8192 4096 _, rawTiles_length 8192 4096 _⟩
  have hblocks := Stored.blocksOf_length plain.length (Nat.le_refl _)
  have hlen : (storedCodec.compress plain).length = 2 + (Stored.blocksOf plain.length plain).length :=
    List.length_append
  have hmax : maxZrleLength = 67108864 := by decide
  refine ⟨plain, storedCodec.compress plain, hplain, storedCodec.sync_new,
    ⟨rfl, _, Stored.blocks_blocksOf (Nat.le_refl _), rfl⟩, ?_⟩
  unfold zrle
  rw [bind_ok (parses_u32 (by omega) _), if_pos (by omega)]
  rfl

/-- A 3×1 rectangle of two colours, packed, in one stored block and a flush. -/
def packedPlain : List UInt8 := [2, 9, 8, 7, 255, 0, 0, 0x40]

def packedBytes : List UInt8 := [0x78, 0x01] ++ (Stored.blockBytes packedPlain ++ Stored.blockBytes [])

def striped (x _y : Nat) : Rgb := if x = 1 then ⟨255, 0, 0⟩ else ⟨9, 8, 7⟩

theorem areZrleTiles_striped : AreZrleTiles 3 1 striped packedPlain := by
  have hrow : IsPackedRow 1 [0, 1, 0] [0x40] :=
    @IsPackedRow.cons 1 [0, 1, 0] [0, 0, 0, 0, 0] [] [] (by decide) (fun _ => rfl) (by decide) (by decide) .nil
  have htile : IsZrleTile 3 1 [⟨9, 8, 7⟩, ⟨255, 0, 0⟩, ⟨9, 8, 7⟩] packedPlain :=
    @IsZrleTile.packed 3 1 [⟨9, 8, 7⟩, ⟨255, 0, 0⟩] _ [[0, 1, 0]] 1 [0x40] (.inl ⟨rfl, rfl⟩) rfl (by decide) (.one hrow)
      (by decide)
  exact .one htile

theorem deflates_striped : storedCodec.Deflates .cmf packedPlain packedBytes .block := by
  have hflush : Stored.Blocks [] (Stored.blockBytes []) := @Stored.Blocks.cons [] [] [] (by decide) .nil
  exact ⟨rfl, _, @Stored.Blocks.cons packedPlain [] _ (by decide) hflush, rfl⟩

theorem zrle_inverts_striped : ∃ s', storedCodec.Sync .block s' [] [] ∧
    Parses (zrle storedCodec.toFlate .cmf 3 1) (toBeBytes 4 packedBytes.length ++ packedBytes)
      (s', raster 3 1 fun x y => pack (striped x y)) :=
  (zrle_inverts areZrleTiles_striped storedCodec.sync_new deflates_striped (by decide)).1

end Vento.Rfb
