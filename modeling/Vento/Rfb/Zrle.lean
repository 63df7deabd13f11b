import Vento.Rfb.Decode
import Vento.Rfb.Zlib
/-!
# ZRLE

`zrle` of `rfb/src/decode.rs`: 64×64 tiles down a persistent zlib stream, each
tile raw, solid, of packed palette indices, or run-length encoded with or
without a palette. The palette array outlives the tile; a tile overwrites as
many of its entries as it has colours.

The tile reader is generic in what stands for a colour (`β`, with `ofWord` for
a colour the tile gives), so that where a pixel came from can be followed. The
code is the instance at framebuffer words.
-/

namespace Vento.Rfb.Decode

open Vento.Lib Parser

/-! ## The reader over the inflated bytes -/

def ranOut : Failure := .error (.protocol "ZRLE stream ran out")

def tilesU8 : Reader UInt8 := next ranOut

def cpixel : Reader UInt32 := do
  let r ← tilesU8
  let g ← tilesU8
  let b ← tilesU8
  return pack ⟨r, g, b⟩

def runLengthFrom (total : Nat) : List UInt8 → Except Failure (Nat × List UInt8)
  | [] => .error ranOut
  | b :: bs => if b ≠ 255 then .ok (total + b.toNat, bs) else runLengthFrom (total + b.toNat) bs

/-- 255 means "and more"; the total is one greater than the sum. -/
def runLength : Reader Nat := runLengthFrom 1

/-! ## One tile -/

section Tile

variable {β : Type} (ofWord : UInt32 → β)

/-- `n` colours. -/
def cpixels (n : Nat) : Reader (List β) := repeatM n (fun cs => do return cs ++ [ofWord (← cpixel)]) []

/-- A palette entry; past the array there is black. -/
def entry (palette : List β) (index : Nat) : β := palette.getD index (ofWord black)

/-- The first `size` entries are the tile's, the others what they were. -/
def readPalette (size : Nat) (palette : List β) : Reader (List β) := do
  let own ← cpixels ofWord size
  return own ++ palette.drop size

/-- The width of an index into a packed palette. -/
def indexBits (size : Nat) : Option Nat :=
  if size = 2 then some 1
  else if 3 ≤ size ∧ size ≤ 4 then some 2
  else if 5 ≤ size ∧ size ≤ 16 then some 4
  else none

def packedIndex (bits : Nat) (byte : UInt8) (slot : Nat) : Nat :=
  let shift := 8 - bits * (slot + 1)
  let mask := UInt8.ofNat (2 ^ bits - 1)
  ((byte >>> UInt8.ofNat shift) &&& mask).toNat

/-- A row of packed indices, padded to a byte. -/
def packedRow (palette : List β) (bits tw : Nat) (tile : List β) : Reader (List β) :=
  (·.2) <$> whileM .hangs (fun s : Nat × List β => s.1 < tw)
    (fun s => do
      let byte ← tilesU8
      let taken := min (8 / bits) (tw - s.1)
      return (s.1 + taken, s.2 ++ (List.range taken).map fun slot => entry ofWord palette (packedIndex bits byte slot)))
    tw (0, tile)

def plainRle (n : Nat) : Reader (List β) :=
  whileM .hangs (fun tile => tile.length < n)
    (fun tile => do
      let colour ← cpixel
      let run ← runLength
      return tile ++ List.replicate (min run (n - tile.length)) (ofWord colour))
    n []

/-- The top bit says that a run length follows; without it the index stands for
a single pixel. -/
def indexRun (index : UInt8) : Reader Nat := if index &&& 0x80 ≠ 0 then runLength else pure 1

def paletteRle (palette : List β) (n : Nat) : Reader (List β) :=
  whileM .hangs (fun tile => tile.length < n)
    (fun tile => do
      let index ← tilesU8
      let run ← indexRun index
      return tile ++ List.replicate (min run (n - tile.length)) (entry ofWord palette (index &&& 0x7f).toNat))
    n []

/-- The pixels after the subencoding byte, and the palette array after them. -/
def tileBody (tw th : Nat) (palette : List β) (rle : Bool) (paletteSize : Nat) : Reader (List β × List β) :=
  match rle, paletteSize with
  | false, 0 => do
    let tile ← cpixels ofWord (tw * th)
    return (palette, tile)
  | _, 1 => do
    let colour ← cpixel
    return (palette, List.replicate (tw * th) (ofWord colour))
  | false, size => do
    let palette ← readPalette ofWord size palette
    match indexBits size with
    | some bits => do
      let tile ← repeatM th (packedRow ofWord palette bits tw) []
      return (palette, tile)
    | none => Parser.fail (.error (.protocol s!"ZRLE palette of {size}"))
  | true, 0 => do
    let tile ← plainRle ofWord (tw * th)
    return (palette, tile)
  | true, size => do
    let palette ← readPalette ofWord size palette
    let tile ← paletteRle ofWord palette (tw * th)
    return (palette, tile)

def tilePixels (tw th : Nat) (palette : List β) : Reader (List β × List β) := do
  let subencoding ← tilesU8
  tileBody ofWord tw th palette (decide (subencoding &&& 0x80 ≠ 0)) (subencoding &&& 0x7f).toNat

end Tile

/-! ## The rectangle -/

structure ZrleState where
  out : List UInt32
  palette : List UInt32

def zrleTile (w : Nat) (s : ZrleState) (t : Rect) : Reader ZrleState := do
  let (palette, tile) ← tilePixels id t.w t.h s.palette
  if tile.length < t.w * t.h then
    Parser.fail (.error (.protocol s!"ZRLE tile short: {tile.length} of {t.w * t.h}"))
  else
    let out ← orPanic (blit s.out w t.x t.y t.w t.h tile)
    return ⟨out, palette⟩

/-- The tiles of the inflated bytes. -/
def zrleTiles (w h : Nat) : Reader (List UInt32) :=
  (·.out) <$> (Rect.grid w h 64).foldlM (zrleTile w) ⟨List.replicate (w * h) black, List.replicate 128 0⟩

/-- The most the tiles can decompress to. -/
def zrleLimit (w h : Nat) : Nat :=
  let tilesOver := (w + 63) / 64 * ((h + 63) / 64)
  w * h * 4 + tilesOver * (1 + 128 * 3) + 64

def maxZrleLength : Nat := 64 <<< 20

/-- A rectangle, and the zlib stream after it. Bytes left over after the last
tile are not looked at. -/
def zrle (z : Flate) (stream : z.State) (w h : Nat) : Reader (z.State × List UInt32) := do
  let length ← u32
  if length > maxZrleLength then Parser.fail (.error (.protocol s!"ZRLE rectangle of {length} bytes"))
  else
    let compressed ← bytes length
    let (stream, data) ← (liftM (z.inflate stream compressed (zrleLimit w h)) : Reader _)
    let (out, _) ← (liftM (zrleTiles w h data) : Reader _)
    return (stream, out)

/-! ## A tile reads its own bytes -/

theorem local_tilesU8 : Local tilesU8 := Local.next ranOut

theorem local_cpixel : Local cpixel :=
  local_tilesU8.bind fun _ => local_tilesU8.bind fun _ => local_tilesU8.bind fun _ => Local.pure _

theorem local_runLengthFrom (total : Nat) : Local (runLengthFrom total : Reader Nat) := by
  intro bs n rest h
  induction bs generalizing total with
  | nil => cases h
  | cons b bs ih =>
    rw [runLengthFrom] at h
    split at h
    · cases h
      refine ⟨[b], rfl, fun rest => ?_⟩
      rw [List.singleton_append, runLengthFrom, if_pos ‹_›]
    · obtain ⟨used, rfl, hu⟩ := ih _ h
      refine ⟨b :: used, rfl, fun rest => ?_⟩
      rw [List.cons_append, runLengthFrom, if_neg ‹_›, hu rest]

theorem local_runLength : Local runLength := local_runLengthFrom 1

theorem local_indexRun (index : UInt8) : Local (indexRun index) := by
  unfold indexRun
  split
  · exact local_runLength
  · exact Local.pure 1

section Tile

variable {β : Type} (ofWord : UInt32 → β)

theorem local_cpixels (n : Nat) : Local (cpixels ofWord n) :=
  Local.repeatM (fun _ => local_cpixel.bind fun _ => Local.pure _) n []

theorem local_readPalette (size : Nat) (palette : List β) : Local (readPalette ofWord size palette) :=
  (local_cpixels ofWord size).bind fun _ => Local.pure _

theorem local_packedRow (palette : List β) (bits tw : Nat) (tile : List β) :
    Local (packedRow ofWord palette bits tw tile) :=
  (Local.whileM (fun _ => local_tilesU8.bind fun _ => Local.pure _) tw _).map _

theorem local_plainRle (n : Nat) : Local (plainRle ofWord n) :=
  Local.whileM (fun _ => local_cpixel.bind fun _ => local_runLength.bind fun _ => Local.pure _) n []

theorem local_paletteRle (palette : List β) (n : Nat) : Local (paletteRle ofWord palette n) := by
  exact Local.whileM (fun _ => local_tilesU8.bind fun index => (local_indexRun index).bind fun _ => Local.pure _) n []

theorem local_tileBody (tw th : Nat) (palette : List β) (rle : Bool) (paletteSize : Nat) :
    Local (tileBody ofWord tw th palette rle paletteSize) := by
  unfold tileBody
  split
  · exact (local_cpixels ofWord _).bind fun _ => Local.pure _
  · exact local_cpixel.bind fun _ => Local.pure _
  · refine (local_readPalette ofWord _ palette).bind fun palette => ?_
    split
    · exact (Local.repeatM (local_packedRow ofWord palette _ tw) th []).bind fun _ => Local.pure _
    · exact Local.fail _
  · exact (local_plainRle ofWord _).bind fun _ => Local.pure _
  · exact (local_readPalette ofWord _ palette).bind fun palette =>
      (local_paletteRle ofWord palette _).bind fun _ => Local.pure _

theorem local_tilePixels (tw th : Nat) (palette : List β) : Local (tilePixels ofWord tw th palette) :=
  local_tilesU8.bind fun _ => local_tileBody ofWord tw th palette _ _

/-! ## A tile has its size -/

theorem isError_ranOut : ranOut.IsError := ⟨_, rfl⟩

theorem sat_tilesU8 : Sat tilesU8 (fun _ => True) Failure.IsError := Sat.next isError_ranOut

theorem sat_cpixel : Sat cpixel (fun _ => True) Failure.IsError :=
  sat_tilesU8.bind fun _ _ => sat_tilesU8.bind fun _ _ => sat_tilesU8.bind fun _ _ => Sat.pure trivial

theorem sat_runLengthFrom (total : Nat) : Sat (runLengthFrom total : Reader Nat) (total ≤ ·) Failure.IsError := by
  refine Sat.of_ok_or fun bs => ?_
  induction bs generalizing total with
  | nil => exact .inr ⟨ranOut, rfl, isError_ranOut⟩
  | cons b bs ih =>
    rw [runLengthFrom]
    split
    · exact .inl ⟨_, bs, rfl, Nat.le_add_right total b.toNat⟩
    · rcases ih (total + b.toNat) with ⟨n, rest, h, hle⟩ | herr
      · exact .inl ⟨n, rest, h, Nat.le_trans (Nat.le_add_right total b.toNat) hle⟩
      · exact .inr herr

theorem sat_runLength : Sat runLength (1 ≤ ·) Failure.IsError := sat_runLengthFrom 1

theorem sat_indexRun (index : UInt8) : Sat (indexRun index) (1 ≤ ·) Failure.IsError := by
  unfold indexRun
  split
  · exact sat_runLength
  · exact Sat.pure (Nat.le_refl 1)

theorem sat_cpixels (n : Nat) : Sat (cpixels ofWord n) (fun cs => cs.length = n) Failure.IsError :=
  Sat.repeatM_count (fun k (cs : List β) => cs.length = k)
    (fun k cs hcs => sat_cpixel.bind fun c _ => Sat.pure (by simp [hcs])) n rfl

theorem sat_readPalette {size : Nat} {palette : List β} (hsize : size ≤ palette.length) :
    Sat (readPalette ofWord size palette) (fun p => p.length = palette.length) Failure.IsError :=
  (sat_cpixels ofWord size).bind fun own hown => Sat.pure (by simp [hown, hsize])

theorem sat_packedRow (palette : List β) {bits : Nat} (hbits : 0 < 8 / bits) (tw : Nat) (tile : List β) :
    Sat (packedRow ofWord palette bits tw tile) (fun tile' => tile'.length = tile.length + tw) Failure.IsError := by
  refine (Sat.whileM (fun s => s.1 ≤ tw ∧ s.2.length = tile.length + s.1) (fun s => tw - s.1) (fun s hs hc => ?_)
    ⟨Nat.zero_le _, rfl⟩ (Nat.sub_le _ _)).map fun s hs => ?_
  · simp only [decide_eq_true_eq] at hc
    refine ⟨by omega, sat_tilesU8.bind fun byte _ => Sat.pure ⟨⟨?_, ?_⟩, ?_⟩⟩
    · simp only
      omega
    · simp only [List.length_append, List.length_map, List.length_range]
      omega
    · simp only
      omega
  · have := hs.2
    simp only [decide_eq_false_iff_not] at this
    omega

/-- Both run-length loops: a round adds a pixel at least and never one too
many. -/
theorem sat_runs (n : Nat) {body : List β → Reader (List β)}
    (hbody : ∀ tile, tile.length < n → Sat (body tile) (fun tile' => ∃ run c, 1 ≤ run ∧
      tile' = tile ++ List.replicate (min run (n - tile.length)) c) Failure.IsError) :
    Sat (whileM .hangs (fun tile => tile.length < n) body n []) (fun tile => tile.length = n) Failure.IsError := by
  refine (Sat.whileM (fun tile => tile.length ≤ n) (fun tile => n - tile.length) (fun tile hle hc => ?_)
    (Nat.zero_le n) (Nat.sub_le _ _)).mono fun tile htile => ?_
  · simp only [decide_eq_true_eq] at hc
    refine ⟨by omega, (hbody tile hc).mono ?_⟩
    rintro _ ⟨run, c, hrun, rfl⟩
    simp only [List.length_append, List.length_replicate]
    omega
  · obtain ⟨hle, hc⟩ := htile
    simp only [decide_eq_false_iff_not] at hc
    omega

theorem sat_plainRle (n : Nat) : Sat (plainRle ofWord n) (fun tile => tile.length = n) Failure.IsError :=
  sat_runs n fun _ _ => sat_cpixel.bind fun c _ => sat_runLength.bind fun run hrun =>
    Sat.pure ⟨run, ofWord c, hrun, rfl⟩

theorem sat_paletteRle (palette : List β) (n : Nat) :
    Sat (paletteRle ofWord palette n) (fun tile => tile.length = n) Failure.IsError :=
  sat_runs n fun _ _ => sat_tilesU8.bind fun index _ => (sat_indexRun index).bind fun run hrun =>
    Sat.pure ⟨run, _, hrun, rfl⟩

theorem indexBits_pos {size bits : Nat} (h : indexBits size = some bits) : 0 < 8 / bits := by
  unfold indexBits at h
  split at h
  · cases h
    decide
  · split at h
    · cases h
      decide
    · split at h
      · cases h
        decide
      · cases h

theorem sat_tileBody {tw th : Nat} {palette : List β} (hp : palette.length = 128) (rle : Bool) {paletteSize : Nat}
    (hsize : paletteSize < 128) : Sat (tileBody ofWord tw th palette rle paletteSize)
      (fun r => r.1.length = 128 ∧ r.2.length = tw * th) Failure.IsError := by
  unfold tileBody
  split
  · exact (sat_cpixels ofWord _).bind fun _ h => Sat.pure ⟨hp, h⟩
  · exact sat_cpixel.bind fun _ _ => Sat.pure ⟨hp, by simp⟩
  · refine (sat_readPalette ofWord (by omega)).bind fun p hp' => ?_
    split
    · rename_i bits hbits
      refine (Sat.repeatM_count (fun k tile => tile.length = k * tw) (fun k tile htile => ?_) th (by simp)).bind
        fun tile htile => Sat.pure ⟨hp'.trans hp, ?_⟩
      · refine (sat_packedRow ofWord p (indexBits_pos hbits) tw tile).mono fun tile' h => ?_
        rw [h, htile, Nat.succ_mul]
      · rw [htile, Nat.mul_comm]
    · exact Sat.fail (isError_protocol _)
  · exact (sat_plainRle ofWord _).bind fun _ h => Sat.pure ⟨hp, h⟩
  · exact (sat_readPalette ofWord (by omega)).bind fun p hp' =>
      (sat_paletteRle ofWord p _).bind fun _ h => Sat.pure ⟨hp'.trans hp, h⟩

theorem paletteSize_lt (subencoding : UInt8) : (subencoding &&& 0x7f).toNat < 128 := by
  have : (subencoding &&& 0x7f).toNat ≤ 0x7f := by
    rw [UInt8.toNat_and]
    exact Nat.and_le_right
  omega

theorem sat_tilePixels {tw th : Nat} {palette : List β} (hp : palette.length = 128) :
    Sat (tilePixels ofWord tw th palette) (fun r => r.1.length = 128 ∧ r.2.length = tw * th) Failure.IsError :=
  sat_tilesU8.bind fun subencoding _ => sat_tileBody ofWord hp _ (paletteSize_lt subencoding)

end Tile

/-! ## The rectangle has its size -/

theorem sat_zrleTile {w h : Nat} {t : Rect} (ht : t.Inside w h) {s : ZrleState} (hlen : s.out.length = w * h)
    (hp : s.palette.length = 128) : Sat (zrleTile w s t) (fun s' => Framed w t s.out s'.out ∧ s'.palette.length = 128)
      Failure.IsError := by
  refine (sat_tilePixels id hp).bind fun r hr => ?_
  obtain ⟨palette, tile⟩ := r
  simp only at hr ⊢
  rw [if_neg (by omega)]
  obtain ⟨out', h1, h2⟩ := blit_framed ht hlen hr.2
  exact (sat_orPanic ⟨out', h1, h2⟩).bind fun out hout => Sat.pure ⟨hout, hr.1⟩

theorem sat_zrleTiles (w h : Nat) : Sat (zrleTiles w h) (fun out => out.length = w * h) Failure.IsError := by
  refine (Sat.foldlM (fun s : ZrleState => s.out.length = w * h ∧ s.palette.length = 128) (fun s t ht hs => ?_)
    (by simp)).map fun _ hs => hs.1
  exact (sat_zrleTile (Rect.grid_inside (by decide) ht) hs.1 hs.2).mono fun _ hs' => ⟨hs'.1.length.trans hs.1, hs'.2⟩

end Vento.Rfb.Decode
