import Vento.Lib.Runs
import Vento.Lib.Tiles
/-!
# The tiled mirror

`Mirror` of the session's view: the desktop copied into tiles, each read again where damage was reported in it. The
protocol's thread changes pixels and reports them, while the drawing thread reads tiles, a step at a time.

Java's ints wrap (`int`). Sizes whose sums do not (`Fits`) cut the desktop into tiles (`Cut`).
-/

namespace Vento.Session

open Vento.Lib

/-- A sum or a product of ints. -/
def int (v : Int) : Int := v.bmod (2 ^ 32)

def clamp (v lo hi : Int) : Int := if v < lo then lo else min v hi

structure Area where
  x0 : Int
  y0 : Int
  x1 : Int
  y1 : Int
deriving DecidableEq, Repr

namespace Area

def Has (a : Area) (p : Int × Int) : Prop := (a.x0 ≤ p.1 ∧ p.1 < a.x1) ∧ a.y0 ≤ p.2 ∧ p.2 < a.y1

instance (a : Area) (p : Int × Int) : Decidable (a.Has p) := inferInstanceAs (Decidable (_ ∧ _))

/-- The least that has both. -/
def union (a b : Area) : Area := ⟨min a.x0 b.x0, min a.y0 b.y0, max a.x1 b.x1, max a.y1 b.y1⟩

end Area

/-- The ints from `lo` to `hi`. -/
def upTo (lo hi : Int) : List Int := (List.range (hi - lo + 1).toNat).map fun k : Nat => lo + k

def Area.pixels (a : Area) : List (Int × Int) :=
  (upTo a.y0 (a.y1 - 1)).flatMap fun y => (upTo a.x0 (a.x1 - 1)).map fun x => (x, y)

/-! ## The grid -/

def apron : Int := 1

structure Grid where
  desktopW : Int
  desktopH : Int
  tileW : Int
  tileH : Int
  cols : Int
  rows : Int
deriving DecidableEq, Repr

/-- How many tiles cover one side of the desktop, and the length that divides it evenly between as many. -/
def tileCount (size tileSize : Int) : Int := max 1 ((int (size + tileSize - 1)).tdiv tileSize)

def tileLength (size count : Int) : Int := (int (size + count - 1)).tdiv count

/-- Where a tile starts and ends along one side, with what it keeps of its neighbours. -/
def extentStart (tile k : Int) : Int := max 0 (int (k * tile - apron))

def extentEnd (size tile k : Int) : Int := min size (int ((k + 1) * tile + apron))

namespace Grid

def make (desktopW desktopH tileSize : Int) : Grid :=
  let cols := tileCount desktopW tileSize
  let rows := tileCount desktopH tileSize
  ⟨desktopW, desktopH, tileLength desktopW cols, tileLength desktopH rows, cols, rows⟩

variable (g : Grid)

def left (c : Int) : Int := extentStart g.tileW c

def top (r : Int) : Int := extentStart g.tileH r

def right (c : Int) : Int := extentEnd g.desktopW g.tileW c

def bottom (r : Int) : Int := extentEnd g.desktopH g.tileH r

def extent (c r : Int) : Area := ⟨g.left c, g.top r, g.right c, g.bottom r⟩

def Inside (c r : Int) : Prop := (0 ≤ c ∧ c < g.cols) ∧ 0 ≤ r ∧ r < g.rows

instance (c r : Int) : Decidable (g.Inside c r) := inferInstanceAs (Decidable (_ ∧ _))

/-- Where `draw` puts a tile on the desktop. -/
def dst (c r : Int) : Area :=
  let x := int (c * g.tileW)
  let y := int (r * g.tileH)
  let w := min g.tileW (int (g.desktopW - x))
  let h := min g.tileH (int (g.desktopH - y))
  ⟨x, y, int (x + w), int (y + h)⟩

/-- What part of its bitmap that is. -/
def src (c r : Int) : Area :=
  let x := int (c * g.tileW)
  let y := int (r * g.tileH)
  let w := min g.tileW (int (g.desktopW - x))
  let h := min g.tileH (int (g.desktopH - y))
  let ax := int (x - g.left c)
  let ay := int (y - g.top r)
  ⟨ax, ay, int (ax + w), int (ay + h)⟩

end Grid

/-! ## The mirror -/

section Mirror

variable {P : Type}

structure Bitmap (P : Type) where
  width : Int
  height : Int
  pixel : Int × Int → P

/-- `Bitmap.createBitmap`, which refuses a size of nothing. -/
def createBitmap (blank : P) (width height : Int) : Option (Bitmap P) :=
  if 0 < width ∧ 0 < height then some ⟨width, height, fun _ => blank⟩ else none

def Bitmap.put (b : Bitmap P) (p : Int × Int) (v : P) : Bitmap P := { b with pixel := Function.update b.pixel p v }

structure Tile (P : Type) where
  bitmap : Option (Bitmap P)
  ready : Bool
  dirty : Bool
  owed : Area

structure Mirror (P : Type) where
  grid : Grid
  tiles : Int × Int → Tile P
  damageRects : Nat
  c0 : Int
  r0 : Int
  c1 : Int
  r1 : Int
  allocated : Nat
  lastRead : Nat

namespace Mirror

/-- The constructor, which fails where an array of four ints for every tile cannot be. -/
def make (desktopW desktopH tileSize : Int) : Option (Mirror P) :=
  let g := Grid.make desktopW desktopH tileSize
  if 4 * (g.cols * g.rows) < 2 ^ 31 then
    some ⟨g, fun p => ⟨none, false, true, g.extent p.1 p.2⟩, 0, 0, 0, 0, 0, 0, 0⟩
  else none

variable (m : Mirror P)

/-- A tile with what it is owed grown, if it is owed anything. -/
def owe (t : Tile P) (a : Area) : Tile P :=
  if t.dirty then { t with owed := t.owed.union a } else { t with dirty := true, owed := a }

/-- Marks what of `a` the tiles have. Fails where a tile has no length to divide by. -/
def mark (a : Area) : Option (Mirror P) :=
  let g := m.grid
  if a.x1 ≤ a.x0 ∨ a.y1 ≤ a.y0 then some m
  else if g.tileW = 0 ∨ g.tileH = 0 then none
  else
    let fc := clamp (a.x0.tdiv g.tileW) 0 (g.cols - 1)
    let lc := clamp ((a.x1 - 1).tdiv g.tileW) 0 (g.cols - 1)
    let fr := clamp (a.y0.tdiv g.tileH) 0 (g.rows - 1)
    let lr := clamp ((a.y1 - 1).tdiv g.tileH) 0 (g.rows - 1)
    some { m with
      damageRects := m.damageRects + 1
      tiles := fun p =>
        if (fc ≤ p.1 ∧ p.1 ≤ lc) ∧ fr ≤ p.2 ∧ p.2 ≤ lr then
          -- Clipped to the tile.
          let t : Area := ⟨max a.x0 (g.left p.1), max a.y0 (g.top p.2), min a.x1 (g.right p.1), min a.y1 (g.bottom p.2)⟩
          if t.x1 ≤ t.x0 ∨ t.y1 ≤ t.y0 then m.tiles p else owe (m.tiles p) t
        else m.tiles p }

/-- Damage is grown by the apron first. -/
def damaged (x y w h : Int) : Option (Mirror P) :=
  m.mark ⟨max 0 (int (x - apron)), max 0 (int (y - apron)), min m.grid.desktopW (int (x + w + apron)),
    min m.grid.desktopH (int (y + h + apron))⟩

/-- The start of `update`: the range of the tiles in view, from the quotients of its edges as they are rounded. -/
def look (x0 y0 x1 y1 : Int) : Mirror P :=
  let g := m.grid
  let c0 := clamp x0 0 (g.cols - 1)
  let r0 := clamp y0 0 (g.rows - 1)
  { m with
    c0 := c0
    r0 := r0
    c1 := clamp (int (x1 - 1)) c0 (g.cols - 1)
    r1 := clamp (int (y1 - 1)) r0 (g.rows - 1)
    lastRead := 0 }

def set (p : Int × Int) (t : Tile P) : Mirror P := { m with tiles := Function.update m.tiles p t }

/-- The tile after `p` of those in view. -/
def after (p : Int × Int) : Int × Int := if p.1 < m.c1 then (p.1 + 1, p.2) else (m.c0, p.2 + 1)

/-- The tiles in view that are drawn: each with the part of its bitmap and the part of the desktop. -/
def draw : List ((Int × Int) × Area × Area) :=
  (upTo m.r0 m.r1).flatMap fun r => (upTo m.c0 m.c1).filterMap fun c =>
    if (m.tiles (c, r)).ready then some ((c, r), m.grid.src c r, m.grid.dst c r) else none

end Mirror

/-! ## The two threads -/

/-- A call of `readRegion` for a tile, and the pixels that are still to be copied. -/
structure Read where
  tile : Int × Int
  area : Area
  dstX : Int
  dstY : Int
  todo : List (Int × Int)
deriving DecidableEq, Repr

/-- The desktop, its mirror, the pixels whose change is not yet reported, and where `update` is. -/
structure View (P : Type) where
  desktop : Int × Int → P
  unsaid : List (Int × Int)
  mirror : Mirror P
  place : Option (Int × Int)
  reading : Option Read

inductive Action (P : Type) where
  /-- The protocol's thread: a pixel changes, and an area of changes is reported. -/
  | change (p : Int × Int) (v : P)
  | damaged (x y w h : Int32)
  /-- The drawing thread: `update`, its next tile, a pixel of a read, and the read's result. -/
  | update (x0 y0 x1 y1 : Int32)
  | next
  | copy (p : Int × Int)
  | finish (ok : Bool)

def covers (x y w h : Int) (p : Int × Int) : Prop := (x ≤ p.1 ∧ p.1 < x + w) ∧ y ≤ p.2 ∧ p.2 < y + h

instance (x y w h : Int) (p : Int × Int) : Decidable (covers x y w h p) := inferInstanceAs (Decidable (_ ∧ _))

namespace View

def start (desktop : Int × Int → P) (desktopW desktopH tileSize : Int32) : Option (View P) :=
  (Mirror.make desktopW.toInt desktopH.toInt tileSize.toInt).map fun m => ⟨desktop, [], m, none, none⟩

/-- The drawing thread at the tile `p`, or past the last. -/
def next (blank : P) (s : View P) (p : Int × Int) : Option (View P) :=
  let m := s.mirror
  let t := m.tiles p
  if m.r1 < p.2 then some { s with place := none }
  else if t.dirty then
    let bitmap := match t.bitmap with
      | some b => some (b, m.allocated)
      | none => (createBitmap blank (int (m.grid.tileW + 2 * apron)) (int (m.grid.tileH + 2 * apron))).map (·, m.allocated + 1)
    let area := t.owed
    bitmap.map fun b =>
      { s with
        mirror := { m.set p { t with dirty := false, bitmap := some b.1 } with allocated := b.2 }
        reading := some ⟨p, area, int (area.x0 - m.grid.left p.1), int (area.y0 - m.grid.top p.2), area.pixels⟩ }
  else some { s with place := some (m.after p) }

/-- The backend copies a pixel to where it is in the tile. -/
def copy (s : View P) (r : Read) (p : Int × Int) : Option (View P) :=
  let t := s.mirror.tiles r.tile
  if r.area.Has p then
    t.bitmap.map fun b =>
      { s with
        mirror := s.mirror.set r.tile
          { t with bitmap := some (b.put (r.dstX + (p.1 - r.area.x0), r.dstY + (p.2 - r.area.y0)) (s.desktop p)) }
        reading := some { r with todo := r.todo.filter (· ≠ p) } }
  else none

def finish (s : View P) (r : Read) (ok : Bool) : Option (View P) :=
  let m := s.mirror
  let t := m.tiles r.tile
  if ok then
    if r.todo = [] then
      some { s with
        mirror := { m.set r.tile { t with ready := true } with lastRead := m.lastRead + 1 }
        reading := none
        place := some (m.after r.tile) }
    else none
  else
    some { s with
      mirror := m.set r.tile (Mirror.owe t r.area)
      reading := none
      place := some (m.after r.tile) }

def step (blank : P) (s : View P) : Action P → Option (View P)
  | .change p v => some { s with desktop := Function.update s.desktop p v, unsaid := p :: s.unsaid }
  | .damaged x y w h =>
    (s.mirror.damaged x.toInt y.toInt w.toInt h.toInt).map fun m =>
      { s with mirror := m, unsaid := s.unsaid.filter (¬covers x.toInt y.toInt w.toInt h.toInt ·) }
  | .update x0 y0 x1 y1 =>
    match s.place with
    | some _ => none
    | none =>
      let m := s.mirror.look x0.toInt y0.toInt x1.toInt y1.toInt
      some { s with mirror := m, place := some (m.c0, m.r0) }
  | .next =>
    match s.reading with
    | some _ => none
    | none => s.place.bind (s.next blank)
  | .copy p => s.reading.bind (s.copy · p)
  | .finish ok => s.reading.bind (s.finish · ok)

end View

/-! ## Sizes that fit -/

theorem int_eq {v : Int} (h : -2 ^ 31 ≤ v) (h' : v < 2 ^ 31) : int v = v := Int.bmod_eq_of_le (by omega) (by omega)

/-- How many tiles one side is cut into: one, where the sum that counts them does not fit. -/
def tilesFor (size tileSize : Int) : Int := if size + tileSize - 1 < 2 ^ 31 then parts size tileSize else 1

/-- No sum that is made of one side of the desktop needs more than 32 bits. -/
structure Fits (size tileSize : Int) : Prop where
  spread : size + tilesFor size tileSize - 1 < 2 ^ 31
  reach : tilesFor size tileSize * parts size (tilesFor size tileSize) + 1 < 2 ^ 31
  bitmap : parts size (tilesFor size tileSize) + 2 < 2 ^ 31

/-- One side of the desktop is cut so that no place near it needs more than 32 bits. -/
structure Sized (size tile count : Int) : Prop extends Cut size tile count where
  reach : count * tile + 1 < 2 ^ 31
  bitmap : tile + 2 < 2 ^ 31

theorem tileCount_eq {size t : Int} (hsize : 0 < size) (hsize' : size < 2 ^ 31) (ht : 0 < t) (ht' : t < 2 ^ 31) :
    tileCount size t = tilesFor size t := by
  unfold tileCount tilesFor
  split
  · next h =>
    have hpos := (lt_parts_iff (a := size) ht 0).2 (by omega)
    rw [int_eq (by omega) h, Int.tdiv_eq_ediv_of_nonneg (by omega)]
    exact Int.max_eq_right hpos
  · next h =>
    -- The sum wraps to a negative one.
    have hwrap : int (size + t - 1) = -(2 ^ 32 - (size + t - 1)) := by
      rw [int, ← Int.sub_bmod_right, Int.bmod_eq_of_le (by omega) (by omega)]
      omega
    have hneg := Int.tdiv_nonneg (a := 2 ^ 32 - (size + t - 1)) (b := t) (by omega) (Int.le_of_lt ht)
    rw [hwrap, Int.neg_tdiv]
    omega

theorem sized_of_fits {size t : Int} (hfit : Fits size t) (hsize : 0 < size) (hsize' : size < 2 ^ 31) (ht : 0 < t)
    (ht' : t < 2 ^ 31) : Sized size (tileLength size (tileCount size t)) (tileCount size t) := by
  rw [tileCount_eq hsize hsize' ht ht']
  have hcut : Cut size (parts size (tilesFor size t)) (tilesFor size t) := by
    unfold tilesFor
    split
    · exact cut_even hsize ht
    · have hone : parts size 1 = size := by rw [parts, Int.ediv_one, Int.add_sub_cancel]
      rw [hone]
      exact cut_one hsize
  have hlength : tileLength size (tilesFor size t) = parts size (tilesFor size t) := by
    have hcount := hcut.count_pos
    rw [tileLength, int_eq (by omega) hfit.spread, Int.tdiv_eq_ediv_of_nonneg (by omega)]
    rfl
  rw [hlength]
  exact { hcut with reach := hfit.reach, bitmap := hfit.bitmap }

namespace Sized

variable {size tile count k : Int}

theorem start_eq (h : Sized size tile count) (hk : 0 ≤ k) (hk' : k < count) : int (k * tile) = k * tile := by
  have hnonneg := h.start_nonneg hk
  have hlast := h.end_le hk'
  have hnext : (k + 1) * tile = k * tile + tile := by rw [Int.add_mul, Int.one_mul]
  have htile := h.tile_pos
  have hreach := h.reach
  exact int_eq (by omega) (by omega)

theorem extentStart_eq (h : Sized size tile count) (hk : 0 ≤ k) (hk' : k < count) : extentStart tile k = near tile k := by
  have hnonneg := h.start_nonneg hk
  have hlast := h.end_le hk'
  have hnext : (k + 1) * tile = k * tile + tile := by rw [Int.add_mul, Int.one_mul]
  have htile := h.tile_pos
  have hreach := h.reach
  rw [extentStart, near, apron, int_eq (by omega) (by omega)]

theorem extentEnd_eq (h : Sized size tile count) (hk : 0 ≤ k) (hk' : k < count) : extentEnd size tile k = far size tile k := by
  have hnonneg := h.start_nonneg hk
  have hlast := h.end_le hk'
  have hnext : (k + 1) * tile = k * tile + tile := by rw [Int.add_mul, Int.one_mul]
  have htile := h.tile_pos
  have hreach := h.reach
  rw [extentEnd, far, apron, int_eq (by omega) (by omega)]

end Sized

/-- Both sides are. -/
structure Grid.Good (g : Grid) : Prop where
  across : Sized g.desktopW g.tileW g.cols
  down : Sized g.desktopH g.tileH g.rows

def Area.Nonempty (a : Area) : Prop := a.x0 < a.x1 ∧ a.y0 < a.y1

def Area.Within (a b : Area) : Prop := (b.x0 ≤ a.x0 ∧ a.x1 ≤ b.x1) ∧ b.y0 ≤ a.y0 ∧ a.y1 ≤ b.y1

theorem Area.has_union {a b : Area} {q : Int × Int} (h : a.Has q ∨ b.Has q) : (a.union b).Has q := by
  simp only [Area.Has, Area.union] at h ⊢
  omega

theorem Area.mem_pixels {a : Area} {q : Int × Int} : q ∈ a.pixels ↔ a.Has q := by
  have hupTo : ∀ {lo hi v : Int}, v ∈ upTo lo (hi - 1) ↔ lo ≤ v ∧ v < hi := by
    intro lo hi v
    simp only [upTo, List.mem_map, List.mem_range]
    constructor
    · rintro ⟨k, hk, rfl⟩
      omega
    · intro h
      exact ⟨(v - lo).toNat, by omega, by omega⟩
  simp only [Area.pixels, List.mem_flatMap, List.mem_map, hupTo, Area.Has]
  constructor
  · rintro ⟨y, hy, x, hx, rfl⟩
    exact ⟨hx, hy⟩
  · rintro ⟨hx, hy⟩
    exact ⟨q.2, hy, q.1, hx, rfl⟩

namespace Grid

variable {g : Grid}

theorem extent_eq (h : g.Good) {c r : Int} (hin : g.Inside c r) :
    g.extent c r = ⟨near g.tileW c, near g.tileH r, far g.desktopW g.tileW c, far g.desktopH g.tileH r⟩ := by
  simp only [extent, left, top, right, bottom, h.across.extentStart_eq hin.1.1 hin.1.2, h.across.extentEnd_eq hin.1.1 hin.1.2,
    h.down.extentStart_eq hin.2.1 hin.2.2, h.down.extentEnd_eq hin.2.1 hin.2.2]

theorem extent_nonempty (h : g.Good) {c r : Int} (hin : g.Inside c r) : (g.extent c r).Nonempty := by
  rw [extent_eq h hin]
  exact ⟨h.across.near_lt_far hin.1.1 hin.1.2, h.down.near_lt_far hin.2.1 hin.2.2⟩

/-- The tiles' own areas: a place for every pixel, in one tile only, where the tile's bitmap has it. -/
structure Tiled (g : Grid) : Prop where
  nonempty : ∀ c r, g.Inside c r → (g.dst c r).Nonempty ∧ (g.dst c r).Within ⟨0, 0, g.desktopW, g.desktopH⟩
  covers : ∀ q : Int × Int, (Area.mk 0 0 g.desktopW g.desktopH).Has q → ∃ c r, g.Inside c r ∧ (g.dst c r).Has q
  disjoint : ∀ c r c' r' q, g.Inside c r → g.Inside c' r' → (g.dst c r).Has q → (g.dst c' r').Has q → c = c' ∧ r = r'
  kept : ∀ c r, g.Inside c r → (g.dst c r).Within (g.extent c r) ∧
    g.src c r = ⟨(g.dst c r).x0 - g.left c, (g.dst c r).y0 - g.top r, (g.dst c r).x1 - g.left c, (g.dst c r).y1 - g.top r⟩

/-- One side of where a tile is drawn. -/
theorem side_eq {size tile count k : Int} (h : Sized size tile count) (hk : 0 ≤ k) (hk' : k < count) :
    int (k * tile) = k * tile ∧ min tile (int (size - int (k * tile))) = min tile (size - k * tile) ∧
      int (int (k * tile) + min tile (int (size - int (k * tile)))) = k * tile + min tile (size - k * tile) ∧
      int (int (k * tile) - extentStart tile k) = k * tile - near tile k ∧
      int (int (int (k * tile) - extentStart tile k) + min tile (int (size - int (k * tile)))) =
        k * tile + min tile (size - k * tile) - near tile k := by
  have hnonneg := h.start_nonneg hk
  have hstart := h.start_lt hk'
  have htile := h.tile_pos
  have hbitmap := h.bitmap
  have hsize : size < 2 ^ 31 := by
    have hreach := h.reach
    have hcovered := h.covered
    omega
  have hnear : near tile k = max 0 (k * tile - 1) := rfl
  rw [h.extentStart_eq hk hk', h.start_eq hk hk', int_eq (v := size - k * tile) (by omega) (by omega),
    int_eq (v := k * tile - near tile k) (by omega) (by omega)]
  refine ⟨rfl, rfl, int_eq (by omega) (by omega), rfl, ?_⟩
  rw [int_eq (by omega) (by omega)]
  omega

theorem dst_eq (h : g.Good) {c r : Int} (hin : g.Inside c r) :
    g.dst c r = ⟨c * g.tileW, r * g.tileH, c * g.tileW + min g.tileW (g.desktopW - c * g.tileW),
      r * g.tileH + min g.tileH (g.desktopH - r * g.tileH)⟩ := by
  obtain ⟨hx, -, hw, -, -⟩ := side_eq h.across hin.1.1 hin.1.2
  obtain ⟨hy, -, hh, -, -⟩ := side_eq h.down hin.2.1 hin.2.2
  simp only [dst, hw, hh]
  rw [hx, hy]

theorem tiled (h : g.Good) : g.Tiled := by
  have hmem : ∀ {c r : Int} {q : Int × Int}, g.Inside c r → (Area.mk 0 0 g.desktopW g.desktopH).Has q →
      ((g.dst c r).Has q ↔ c = q.1 / g.tileW ∧ r = q.2 / g.tileH) := by
    intro c r q hin hq
    rw [dst_eq h hin, ← h.across.mem_iff (k := c) hq.1.2, ← h.down.mem_iff (k := r) hq.2.2]
    rfl
  have hwithin : ∀ {c r : Int}, g.Inside c r →
      (g.dst c r).Nonempty ∧ (g.dst c r).Within ⟨0, 0, g.desktopW, g.desktopH⟩ := by
    intro c r hin
    have hc := h.across.start_lt hin.1.2
    have hr := h.down.start_lt hin.2.2
    have hc' := h.across.start_nonneg hin.1.1
    have hr' := h.down.start_nonneg hin.2.1
    have hw := h.across.tile_pos
    have hh := h.down.tile_pos
    rw [dst_eq h hin]
    simp only [Area.Nonempty, Area.Within]
    omega
  have hdesktop : ∀ {c r : Int} {q : Int × Int}, g.Inside c r → (g.dst c r).Has q → (Area.mk 0 0 g.desktopW g.desktopH).Has q := by
    intro c r q hin hq
    obtain ⟨-, hx, hy⟩ := hwithin hin
    simp only [Area.Has] at hq hx hy ⊢
    omega
  refine ⟨fun c r hin => hwithin hin, ?_, ?_, ?_⟩
  · intro q hq
    have hin : g.Inside (q.1 / g.tileW) (q.2 / g.tileH) := ⟨h.across.index_mem hq.1.1 hq.1.2, h.down.index_mem hq.2.1 hq.2.2⟩
    exact ⟨_, _, hin, (hmem hin hq).2 ⟨rfl, rfl⟩⟩
  · intro c r c' r' q hin hin' hq hq'
    obtain ⟨rfl, rfl⟩ := (hmem hin (hdesktop hin hq)).1 hq
    obtain ⟨rfl, rfl⟩ := (hmem hin' (hdesktop hin hq)).1 hq'
    exact ⟨rfl, rfl⟩
  · intro c r hin
    obtain ⟨-, -, -, hax, hsw⟩ := side_eq h.across hin.1.1 hin.1.2
    obtain ⟨-, -, -, hay, hsh⟩ := side_eq h.down hin.2.1 hin.2.2
    have hleft := h.across.extentStart_eq hin.1.1 hin.1.2
    have htop := h.down.extentStart_eq hin.2.1 hin.2.2
    have hc' := h.across.start_nonneg hin.1.1
    have hr' := h.down.start_nonneg hin.2.1
    have hw := h.across.tile_pos
    have hh := h.down.tile_pos
    have hnext : (c + 1) * g.tileW = c * g.tileW + g.tileW := by rw [Int.add_mul, Int.one_mul]
    have hnext' : (r + 1) * g.tileH = r * g.tileH + g.tileH := by rw [Int.add_mul, Int.one_mul]
    rw [dst_eq h hin]
    constructor
    · rw [extent_eq h hin]
      simp only [Area.Within, near, far]
      omega
    · simp only [src, left, top] at hax hay hsw hsh ⊢
      rw [hax, hay, hleft, htop] at *
      simp only [hsw, hsh]

end Grid

/-! ## What is kept -/

namespace Mirror

/-- Every tile is owed a part of its extent, and its bitmap has room for all of it. -/
structure Valid (m : Mirror P) : Prop where
  good : m.grid.Good
  view : (0 ≤ m.c0 ∧ m.c0 ≤ m.c1 ∧ m.c1 < m.grid.cols) ∧ 0 ≤ m.r0 ∧ m.r1 < m.grid.rows
  owed : ∀ p, m.grid.Inside p.1 p.2 → (m.tiles p).owed.Nonempty ∧ (m.tiles p).owed.Within (m.grid.extent p.1 p.2)
  bitmap : ∀ p, m.grid.Inside p.1 p.2 → ∀ b ∈ (m.tiles p).bitmap, b.width = m.grid.tileW + 2 ∧ b.height = m.grid.tileH + 2
  ready : ∀ p, m.grid.Inside p.1 p.2 → (m.tiles p).ready → (m.tiles p).bitmap.isSome

/-- What of a tile is marked as changed. -/
def owing (m : Mirror P) (p : Int × Int) : Set (Int × Int) := fun q => (m.tiles p).dirty ∧ (m.tiles p).owed.Has q

/-- A tile's copy of the desktop's pixels. -/
def kept (m : Mirror P) (p q : Int × Int) : Option P :=
  (m.tiles p).bitmap.map fun b => b.pixel (q.1 - m.grid.left p.1, q.2 - m.grid.top p.2)

@[simp] theorem set_grid (m : Mirror P) (p : Int × Int) (t : Tile P) : (m.set p t).grid = m.grid := rfl

theorem set_tiles (m : Mirror P) (p p' : Int × Int) (t : Tile P) :
    (m.set p t).tiles p' = if p' = p then t else m.tiles p' := Function.update_apply _ _ _ _

theorem kept_set_self (m : Mirror P) (p q : Int × Int) (t : Tile P) :
    (m.set p t).kept p q = t.bitmap.map fun b => b.pixel (q.1 - m.grid.left p.1, q.2 - m.grid.top p.2) := by
  rw [kept, set_tiles, if_pos rfl, set_grid]

theorem kept_set_of_ne (m : Mirror P) {p p' : Int × Int} (t : Tile P) (h : p' ≠ p) : (m.set p t).kept p' = m.kept p' := by
  funext q
  rw [kept, set_tiles, if_neg h, set_grid, kept]

theorem owing_set_self (m : Mirror P) (p q : Int × Int) (t : Tile P) : q ∈ (m.set p t).owing p ↔ t.dirty ∧ t.owed.Has q := by
  show ((m.set p t).tiles p).dirty = true ∧ ((m.set p t).tiles p).owed.Has q ↔ _
  rw [set_tiles, if_pos rfl]

theorem owing_set_of_ne (m : Mirror P) {p p' : Int × Int} (t : Tile P) (h : p' ≠ p) : (m.set p t).owing p' = m.owing p' := by
  funext q
  show (((m.set p t).tiles p').dirty = true ∧ ((m.set p t).tiles p').owed.Has q) = _
  rw [set_tiles, if_neg h]
  rfl

theorem owe_owed (t : Tile P) {a e : Area} (ha : a.Nonempty ∧ a.Within e) (ht : t.owed.Nonempty ∧ t.owed.Within e) :
    (owe t a).owed.Nonempty ∧ (owe t a).owed.Within e := by
  unfold owe
  split
  · simp only [Area.Nonempty, Area.Within, Area.union] at ha ht ⊢
    omega
  · exact ha

@[simp] theorem owe_dirty (t : Tile P) (a : Area) : (owe t a).dirty = true := by
  unfold owe
  split
  · next h => exact h
  · rfl

@[simp] theorem owe_bitmap (t : Tile P) (a : Area) : (owe t a).bitmap = t.bitmap := by
  unfold owe
  split <;> rfl

@[simp] theorem owe_ready (t : Tile P) (a : Area) : (owe t a).ready = t.ready := by
  unfold owe
  split <;> rfl

theorem has_owe {t : Tile P} {a : Area} {q : Int × Int} (h : (t.dirty ∧ t.owed.Has q) ∨ a.Has q) : (owe t a).owed.Has q := by
  unfold owe
  split
  · exact Area.has_union (h.imp_left And.right)
  · next hclean => exact h.resolve_left fun hq => hclean hq.1

theorem Valid.set {m : Mirror P} (hm : m.Valid) {p : Int × Int} {t : Tile P}
    (howed : m.grid.Inside p.1 p.2 → t.owed.Nonempty ∧ t.owed.Within (m.grid.extent p.1 p.2))
    (hbitmap : m.grid.Inside p.1 p.2 → ∀ b ∈ t.bitmap, b.width = m.grid.tileW + 2 ∧ b.height = m.grid.tileH + 2)
    (hready : t.ready → t.bitmap.isSome) : (m.set p t).Valid := by
  refine ⟨hm.good, hm.view, ?_, ?_, ?_⟩
  · intro p' hin
    rw [set_tiles]
    split
    · next h => exact h ▸ howed (h ▸ hin)
    · exact hm.owed p' hin
  · intro p' hin
    rw [set_tiles]
    split
    · next h => exact hbitmap (h ▸ hin)
    · exact hm.bitmap p' hin
  · intro p' hin
    rw [set_tiles]
    split
    · exact hready
    · exact hm.ready p' hin

/-- What marking does to the tiles: each is left, or owed some of its extent. -/
theorem mark_cases {m m' : Mirror P} {a : Area} (h : m.mark a = some m') :
    m' = { m with tiles := m'.tiles, damageRects := m'.damageRects } ∧ ∀ p, m'.tiles p = m.tiles p ∨
      ∃ a, a.Nonempty ∧ a.Within (m.grid.extent p.1 p.2) ∧ m'.tiles p = owe (m.tiles p) a := by
  unfold mark at h
  dsimp only at h
  split at h
  · cases h
    exact ⟨rfl, fun p => .inl rfl⟩
  · split at h
    · cases h
    · cases h
      refine ⟨rfl, fun p => ?_⟩
      dsimp only
      split
      · split
        · exact .inl rfl
        · next hne =>
          refine .inr ⟨_, ?_, ?_, rfl⟩
          · simp only [Area.Nonempty]
            omega
          · simp only [Area.Within, Grid.extent]
            omega
      · exact .inl rfl

theorem clamp_le {v k n : Int} (hk : 0 ≤ k) (h : v ≤ k) : clamp v 0 n ≤ k := by
  unfold clamp
  split
  · exact hk
  · omega

theorem le_clamp {v k n : Int} (hk : k ≤ n) (h : k ≤ v) : k ≤ clamp v 0 n := by
  unfold clamp
  split
  · omega
  · omega

/-- A place whose surroundings are marked is so in every tile that has it. -/
theorem mark_owing {m m' : Mirror P} {a : Area} (hm : m.grid.Good) (hd : m.mark a = some m') {p q : Int × Int}
    (hin : m.grid.Inside p.1 p.2) (hq : (m.grid.extent p.1 p.2).Has q) (hx0 : 0 ≤ a.x0 ∧ a.x0 ≤ max 0 (q.1 - 1))
    (hx1 : min m.grid.desktopW (q.1 + 2) ≤ a.x1) (hy0 : 0 ≤ a.y0 ∧ a.y0 ≤ max 0 (q.2 - 1))
    (hy1 : min m.grid.desktopH (q.2 + 2) ≤ a.y1) : q ∈ m'.owing p := by
  have hextent := Grid.extent_eq hm hin
  have hq' := hq
  rw [hextent] at hq'
  obtain ⟨hqx, hqy⟩ := hq'
  dsimp only at hqx hqy
  have hnear : 0 ≤ near m.grid.tileW p.1 := Int.le_max_left _ _
  have hnear' : 0 ≤ near m.grid.tileH p.2 := Int.le_max_left _ _
  have hfar : far m.grid.desktopW m.grid.tileW p.1 ≤ m.grid.desktopW := Int.min_le_left _ _
  have hfar' : far m.grid.desktopH m.grid.tileH p.2 ≤ m.grid.desktopH := Int.min_le_left _ _
  have htile := hm.across.tile_pos
  have htile' := hm.down.tile_pos
  obtain ⟨hfc, hlc⟩ := hm.across.reached hin.1.1 hin.1.2 hqx.1 hqx.2 hx0.2 hx1
  obtain ⟨hfr, hlr⟩ := hm.down.reached hin.2.1 hin.2.2 hqy.1 hqy.2 hy0.2 hy1
  unfold mark at hd
  dsimp only at hd
  rw [if_neg (by omega), if_neg (by omega), Int.tdiv_eq_ediv_of_nonneg hx0.1, Int.tdiv_eq_ediv_of_nonneg (by omega),
    Int.tdiv_eq_ediv_of_nonneg hy0.1, Int.tdiv_eq_ediv_of_nonneg (by omega)] at hd
  cases hd
  have hreached := And.intro (And.intro (clamp_le (n := m.grid.cols - 1) hin.1.1 hfc) (le_clamp (Int.le_sub_one_of_lt hin.1.2) hlc))
    (And.intro (clamp_le (n := m.grid.rows - 1) hin.2.1 hfr) (le_clamp (Int.le_sub_one_of_lt hin.2.2) hlr))
  simp only [Area.Has, Grid.extent] at hq
  show Tile.dirty _ = true ∧ (Tile.owed _).Has q
  dsimp only
  rw [if_pos hreached, if_neg (by omega)]
  refine ⟨owe_dirty _ _, has_owe (.inr ?_)⟩
  simp only [Area.Has]
  omega

/-- A report of a rectangle whose sums fit marks all that it covers. -/
theorem damaged_owing {m m' : Mirror P} {x y w h : Int} (hm : m.grid.Good) (hd : m.damaged x y w h = some m')
    (hx : -2 ^ 31 < x) (hx' : x + w + 1 < 2 ^ 31) (hy : -2 ^ 31 < y) (hy' : y + h + 1 < 2 ^ 31) {p q : Int × Int}
    (hin : m.grid.Inside p.1 p.2) (hq : (m.grid.extent p.1 p.2).Has q) (hc : covers x y w h q) : q ∈ m'.owing p := by
  obtain ⟨⟨hcx, hcx'⟩, hcy, hcy'⟩ := hc
  have hgrown : m.damaged x y w h = m.mark ⟨max 0 (x - 1), max 0 (y - 1), min m.grid.desktopW (x + w + 1),
      min m.grid.desktopH (y + h + 1)⟩ := by
    rw [damaged, apron, int_eq (v := x - 1) (by omega) (by omega), int_eq (v := y - 1) (by omega) (by omega),
      int_eq (v := x + w + 1) (by omega) hx', int_eq (v := y + h + 1) (by omega) hy']
  rw [hgrown] at hd
  refine mark_owing hm hd hin hq ?_ ?_ ?_ ?_
  · dsimp only
    omega
  · dsimp only
    omega
  · dsimp only
    omega
  · dsimp only
    omega

end Mirror

theorem Grid.extent_size {g : Grid} (h : g.Good) {c r : Int} (hin : g.Inside c r) :
    g.right c - g.left c ≤ g.tileW + 2 ∧ g.bottom r - g.top r ≤ g.tileH + 2 := by
  have hnext : (c + 1) * g.tileW = c * g.tileW + g.tileW := by rw [Int.add_mul, Int.one_mul]
  have hnext' : (r + 1) * g.tileH = r * g.tileH + g.tileH := by rw [Int.add_mul, Int.one_mul]
  rw [Grid.left, Grid.right, Grid.top, Grid.bottom, h.across.extentStart_eq hin.1.1 hin.1.2, h.across.extentEnd_eq hin.1.1 hin.1.2,
    h.down.extentStart_eq hin.2.1 hin.2.2, h.down.extentEnd_eq hin.2.1 hin.2.2]
  simp only [near, far]
  omega

/-- A read is of a part of its tile's extent, and lands there in its bitmap. -/
structure Read.Lands (m : Mirror P) (r : Read) : Prop where
  area : r.area.Nonempty ∧ r.area.Within (m.grid.extent r.tile.1 r.tile.2)
  dst : r.dstX = r.area.x0 - m.grid.left r.tile.1 ∧ r.dstY = r.area.y0 - m.grid.top r.tile.2
  bitmap : (m.tiles r.tile).bitmap.isSome
  todo : ∀ q ∈ r.todo, r.area.Has q

namespace View

/-- The pixels of a tile that need not be the desktop's: owed, still to be copied, or not yet reported. -/
def marked (s : View P) (p : Int × Int) : Set (Int × Int) :=
  fun q => q ∈ s.mirror.owing p ∨ (∃ r ∈ s.reading, r.tile = p ∧ q ∈ r.todo) ∨ q ∈ s.unsaid

structure Inv (s : View P) : Prop where
  valid : s.mirror.Valid
  place : ∀ p ∈ s.place, (s.mirror.c0 ≤ p.1 ∧ p.1 ≤ s.mirror.c1) ∧ s.mirror.r0 ≤ p.2
  reading : ∀ r ∈ s.reading, (s.place = some r.tile ∧ r.tile.2 ≤ s.mirror.r1) ∧ r.Lands s.mirror
  fresh : ∀ p, s.mirror.grid.Inside p.1 p.2 →
    Fresh (s.mirror.grid.extent p.1 p.2).Has (s.marked p) (fun q => some (s.desktop q)) (s.mirror.kept p)

variable {s s' : View P}

theorem Inv.inside (h : s.Inv) {p : Int × Int} (hp : p ∈ s.place) (hr : p.2 ≤ s.mirror.r1) : s.mirror.grid.Inside p.1 p.2 := by
  have hplace := h.place p hp
  have hview := h.valid.view
  simp only [Grid.Inside]
  omega

theorem after_place {m : Mirror P} (hm : m.Valid) {p : Int × Int} (hp : (m.c0 ≤ p.1 ∧ p.1 ≤ m.c1) ∧ m.r0 ≤ p.2) :
    (m.c0 ≤ (m.after p).1 ∧ (m.after p).1 ≤ m.c1) ∧ m.r0 ≤ (m.after p).2 := by
  have hview := hm.view
  unfold Mirror.after
  split
  · dsimp only
    omega
  · dsimp only
    omega

theorem inv_change (h : s.Inv) (p : Int × Int) (v : P) :
    Inv { s with desktop := Function.update s.desktop p v, unsaid := p :: s.unsaid } := by
  refine ⟨h.valid, h.place, h.reading, fun t hin => ?_⟩
  have hsource : (fun q => some (Function.update s.desktop p v q)) = Function.update (fun q => some (s.desktop q)) p (some v) := by
    funext q
    simp only [Function.update_apply]
    split <;> rfl
  dsimp only
  rw [hsource]
  apply ((h.fresh t hin).write p (some v)).mono
  rintro q - (rfl | hq | hq | hq)
  · exact .inr (.inr List.mem_cons_self)
  · exact .inl hq
  · exact .inr (.inl hq)
  · exact .inr (.inr (List.mem_cons_of_mem p hq))

/-- A rectangle that is reported is one whose sums fit. -/
def Said : Action P → Prop
  | .damaged x y w h => (-2 ^ 31 < x.toInt ∧ x.toInt + w.toInt + 1 < 2 ^ 31) ∧ -2 ^ 31 < y.toInt ∧ y.toInt + h.toInt + 1 < 2 ^ 31
  | _ => True

theorem inv_damaged (h : s.Inv) {x y w d : Int} (hx : -2 ^ 31 < x ∧ x + w + 1 < 2 ^ 31) (hy : -2 ^ 31 < y ∧ y + d + 1 < 2 ^ 31)
    {m : Mirror P} (hm : s.mirror.damaged x y w d = some m) :
    Inv { s with mirror := m, unsaid := s.unsaid.filter (¬covers x y w d ·) } := by
  obtain ⟨hframe, htiles⟩ := Mirror.mark_cases hm
  have hgrid : m.grid = s.mirror.grid := by rw [hframe]
  have hbitmap : ∀ p, (m.tiles p).bitmap = (s.mirror.tiles p).bitmap := by
    intro p
    obtain hp | ⟨a, -, -, hp⟩ := htiles p
    · rw [hp]
    · rw [hp, Mirror.owe_bitmap]
  have howing : ∀ p q, q ∈ s.mirror.owing p → q ∈ m.owing p := by
    rintro p q hq
    obtain hp | ⟨a, -, -, hp⟩ := htiles p
    · show (m.tiles p).dirty = true ∧ (m.tiles p).owed.Has q
      rw [hp]
      exact hq
    · show (m.tiles p).dirty = true ∧ (m.tiles p).owed.Has q
      rw [hp]
      exact ⟨Mirror.owe_dirty _ _, Mirror.has_owe (.inl hq)⟩
  refine ⟨⟨?_, ?_, ?_, ?_, ?_⟩, ?_, ?_, ?_⟩
  · rw [hgrid]
    exact h.valid.good
  · rw [hframe]
    exact h.valid.view
  · intro p hin
    rw [hgrid] at hin ⊢
    obtain hp | ⟨a, hne, hwithin, hp⟩ := htiles p
    · rw [hp]
      exact h.valid.owed p hin
    · rw [hp]
      exact Mirror.owe_owed _ ⟨hne, hwithin⟩ (h.valid.owed p hin)
  · intro p hin
    rw [hgrid] at hin ⊢
    rw [hbitmap]
    exact h.valid.bitmap p hin
  · intro p hin hready
    rw [hgrid] at hin
    rw [hbitmap]
    apply h.valid.ready p hin
    obtain hp | ⟨a, -, -, hp⟩ := htiles p
    · rw [hp] at hready
      exact hready
    · rw [hp, Mirror.owe_ready] at hready
      exact hready
  · rw [hframe]
    exact h.place
  · intro r hr
    obtain ⟨hplace, hlands⟩ := h.reading r hr
    refine ⟨?_, ?_, ?_, ?_, hlands.todo⟩
    · rw [hframe]
      exact hplace
    · rw [hgrid]
      exact hlands.area
    · rw [hgrid]
      exact hlands.dst
    · rw [hbitmap]
      exact hlands.bitmap
  · intro p hin
    dsimp only at hin ⊢
    have hkept : m.kept p = s.mirror.kept p := by
      funext q
      rw [Mirror.kept, Mirror.kept, hbitmap, hgrid]
    rw [hkept]
    rw [hgrid] at hin ⊢
    apply (h.fresh p hin).mono
    rintro q hext (hq | hq | hq)
    · exact .inl (howing p q hq)
    · exact .inr (.inl hq)
    · by_cases hc : covers x y w d q
      · exact .inl (Mirror.damaged_owing h.valid.good hm hx.1 hx.2 hy.1 hy.2 hin hext hc)
      · exact .inr (.inr (List.mem_filter.2 ⟨hq, decide_eq_true hc⟩))

theorem inv_update (h : s.Inv) (x0 y0 x1 y1 : Int) (hr : s.reading = none) :
    Inv { s with mirror := s.mirror.look x0 y0 x1 y1, place := some ((s.mirror.look x0 y0 x1 y1).c0, (s.mirror.look x0 y0 x1 y1).r0) } := by
  have hcols := h.valid.good.across.count_pos
  have hrows := h.valid.good.down.count_pos
  have hview : ∀ {n : Int} (v u : Int), 0 < n → 0 ≤ clamp v 0 (n - 1) ∧ clamp v 0 (n - 1) ≤ clamp u (clamp v 0 (n - 1)) (n - 1) ∧
      clamp u (clamp v 0 (n - 1)) (n - 1) < n := by
    intro n v u hn
    unfold clamp
    split <;> split <;> omega
  have hc := hview x0 (int (x1 - 1)) hcols
  have hr' := hview y0 (int (y1 - 1)) hrows
  refine ⟨⟨h.valid.good, ⟨hc, hr'.1, hr'.2.2⟩, h.valid.owed, h.valid.bitmap, h.valid.ready⟩, ?_, ?_, h.fresh⟩
  · intro p hp
    cases hp
    exact ⟨⟨Int.le_refl _, hc.2.1⟩, Int.le_refl _⟩
  · intro r hr''
    dsimp only at hr''
    rw [hr] at hr''
    cases hr''

theorem Inv.moved (h : s.Inv) {p : Int × Int} (hp : (s.mirror.c0 ≤ p.1 ∧ p.1 ≤ s.mirror.c1) ∧ s.mirror.r0 ≤ p.2)
    (hr : s.reading = none) : Inv { s with place := some p } := by
  refine ⟨h.valid, ?_, ?_, h.fresh⟩
  · intro p' hp'
    cases hp'
    exact hp
  · intro r hr'
    dsimp only at hr'
    rw [hr] at hr'
    cases hr'

/-- A tile that is dirty is about to be read: it is clean from now on, and has a bitmap. -/
theorem Inv.inv_read (h : s.Inv) {p : Int × Int} (hp : p ∈ s.place) (hrow : p.2 ≤ s.mirror.r1) (hr : s.reading = none)
    (hdirty : (s.mirror.tiles p).dirty) {b : Bitmap P} {n : Nat}
    (hb : (s.mirror.tiles p).bitmap = some b ∨ (s.mirror.tiles p).bitmap = none ∧
      b.width = s.mirror.grid.tileW + 2 ∧ b.height = s.mirror.grid.tileH + 2) :
    Inv { s with
      mirror := { s.mirror.set p { s.mirror.tiles p with dirty := false, bitmap := some b } with allocated := n }
      reading := some ⟨p, (s.mirror.tiles p).owed, int ((s.mirror.tiles p).owed.x0 - s.mirror.grid.left p.1),
        int ((s.mirror.tiles p).owed.y0 - s.mirror.grid.top p.2), (s.mirror.tiles p).owed.pixels⟩ } := by
  have hin := h.inside hp hrow
  have hvalid : (s.mirror.set p { s.mirror.tiles p with dirty := false, bitmap := some b }).Valid := by
    refine h.valid.set (fun _ => h.valid.owed p hin) ?_ fun _ => rfl
    rintro - b' hb'
    cases hb'
    exact hb.elim (fun hb => h.valid.bitmap p hin b hb) And.right
  have howed := h.valid.owed p hin
  refine ⟨⟨hvalid.good, hvalid.view, hvalid.owed, hvalid.bitmap, hvalid.ready⟩, h.place, ?_, ?_⟩
  · intro r hr'
    cases hr'
    refine ⟨⟨hp, hrow⟩, howed, ?_, ?_, fun q hq => Area.mem_pixels.1 hq⟩
    · have hsize := Grid.extent_size h.valid.good hin
      have hacross := h.valid.good.across.bitmap
      have hdown := h.valid.good.down.bitmap
      obtain ⟨hne, hwithin⟩ := howed
      simp only [Area.Nonempty, Area.Within, Grid.extent] at hne hwithin
      exact ⟨int_eq (by omega) (by omega), int_eq (by omega) (by omega)⟩
    · show ((s.mirror.set p _).tiles p).bitmap.isSome
      rw [Mirror.set_tiles, if_pos rfl]
      rfl
  · intro p' hin'
    have hold := h.fresh p' hin'
    by_cases hpp : p' = p
    · subst hpp
      have hmarks : ∀ q, q ∈ s.marked p' → q ∈ (s.mirror.tiles p').owed.pixels ∨ q ∈ s.unsaid := by
        rintro q (hq | ⟨r, hr', -⟩ | hq)
        · exact .inl (Area.mem_pixels.2 hq.2)
        · rw [hr] at hr'
          cases hr'
        · exact .inr hq
      intro q hext hm
      have hclean : q ∉ s.marked p' := by
        intro hq
        obtain hq | hq := hmarks q hq
        · exact hm (.inr (.inl ⟨_, rfl, rfl, hq⟩))
        · exact hm (.inr (.inr hq))
      have hq := hold q hext hclean
      refine (s.mirror.kept_set_self p' q _).trans ?_
      rcases hb with hb | ⟨hb, -⟩
      · rw [Mirror.kept, hb] at hq
        exact hq
      · rw [Mirror.kept, hb] at hq
        cases hq
    · have hkept := s.mirror.kept_set_of_ne { s.mirror.tiles p with dirty := false, bitmap := some b } hpp
      have howing := s.mirror.owing_set_of_ne { s.mirror.tiles p with dirty := false, bitmap := some b } hpp
      have hnew : Fresh (s.mirror.grid.extent p'.1 p'.2).Has (s.marked p') (fun q => some (s.desktop q))
          ((s.mirror.set p { s.mirror.tiles p with dirty := false, bitmap := some b }).kept p') := by
        rw [hkept]
        exact hold
      apply hnew.mono
      rintro q - (hq | ⟨r, hr', -⟩ | hq)
      · exact .inl (howing.symm ▸ hq)
      · rw [hr] at hr'
        cases hr'
      · exact .inr (.inr hq)

theorem inv_next (blank : P) (h : s.Inv) {p : Int × Int} (hp : p ∈ s.place) (hr : s.reading = none)
    (hs : s.next blank p = some s') : s'.Inv := by
  have hplace := h.place p hp
  unfold next at hs
  dsimp only at hs
  split at hs
  · cases hs
    refine ⟨h.valid, ?_, ?_, h.fresh⟩
    · intro p' hp'
      cases hp'
    · intro r hr'
      dsimp only at hr'
      rw [hr] at hr'
      cases hr'
  · next hrow =>
    split at hs
    · next hdirty =>
      obtain ⟨b, hb, rfl⟩ := Option.map_eq_some_iff.1 hs
      apply h.inv_read hp (Int.not_lt.1 hrow) hr hdirty
      split at hb
      · next b' hb' =>
        cases hb
        exact .inl hb'
      · next hnone =>
        obtain ⟨b', hb', rfl⟩ := Option.map_eq_some_iff.1 hb
        refine .inr ⟨hnone, ?_⟩
        unfold createBitmap at hb'
        have hw := h.valid.good.across.bitmap
        have hh := h.valid.good.down.bitmap
        have hw' := h.valid.good.across.tile_pos
        have hh' := h.valid.good.down.tile_pos
        split at hb'
        · cases hb'
          exact ⟨int_eq (by simp only [apron]; omega) (by simp only [apron]; omega),
            int_eq (by simp only [apron]; omega) (by simp only [apron]; omega)⟩
        · cases hb'
    · cases hs
      exact h.moved (after_place h.valid hplace) hr

/-- A pixel that is copied is the desktop's in the tile that is read. -/
theorem kept_copied (h : s.Inv) {r : Read} (hr : s.reading = some r) {b : Bitmap P}
    (hb : (s.mirror.tiles r.tile).bitmap = some b) (p : Int × Int) :
    (s.mirror.set r.tile { s.mirror.tiles r.tile with
      bitmap := some (b.put (r.dstX + (p.1 - r.area.x0), r.dstY + (p.2 - r.area.y0)) (s.desktop p)) }).kept r.tile =
      Function.update (s.mirror.kept r.tile) p (some (s.desktop p)) := by
  obtain ⟨hx, hy⟩ := (h.reading r hr).2.dst
  funext q
  have hiff : (q.1 - s.mirror.grid.left r.tile.1, q.2 - s.mirror.grid.top r.tile.2) =
      (r.dstX + (p.1 - r.area.x0), r.dstY + (p.2 - r.area.y0)) ↔ q = p := by
    rw [Prod.ext_iff, Prod.ext_iff]
    dsimp only
    omega
  rw [Mirror.kept_set_self, Function.update_apply, Option.map_some, Bitmap.put]
  dsimp only
  rw [Function.update_apply]
  by_cases hq : q = p
  · rw [if_pos (hiff.2 hq), if_pos hq]
  · rw [if_neg (mt hiff.1 hq), if_neg hq, Mirror.kept, hb]
    rfl

theorem inv_copy (h : s.Inv) {r : Read} (hr : s.reading = some r) {p : Int × Int} (hs : s.copy r p = some s') : s'.Inv := by
  obtain ⟨⟨hplace, hrow⟩, hlands⟩ := h.reading r hr
  have hin := h.inside hplace hrow
  unfold copy at hs
  dsimp only at hs
  split at hs
  · next hp =>
    obtain ⟨b, hb, rfl⟩ := Option.map_eq_some_iff.1 hs
    have hcopied := kept_copied h hr hb p
    generalize ht : ({ s.mirror.tiles r.tile with
      bitmap := some (b.put (r.dstX + (p.1 - r.area.x0), r.dstY + (p.2 - r.area.y0)) (s.desktop p)) } : Tile P) = t at hcopied ⊢
    have hvalid : (s.mirror.set r.tile t).Valid := by
      subst ht
      refine h.valid.set (fun _ => h.valid.owed r.tile hin) ?_ fun _ => rfl
      rintro - b' hb'
      cases hb'
      exact h.valid.bitmap r.tile hin b hb
    refine ⟨hvalid, h.place, ?_, ?_⟩
    · intro r' hr'
      cases hr'
      refine ⟨⟨hplace, hrow⟩, hlands.area, hlands.dst, ?_, fun q hq => hlands.todo q (List.mem_of_mem_filter hq)⟩
      show ((s.mirror.set r.tile t).tiles r.tile).bitmap.isSome
      rw [Mirror.set_tiles, if_pos rfl, ← ht]
      rfl
    · intro p' hin'
      have hold := h.fresh p' hin'
      dsimp only
      by_cases hpp : p' = r.tile
      · subst hpp
        rw [hcopied]
        apply (hold.fetch p).mono
        rintro q - ⟨hq | ⟨r', hr', -, hq⟩ | hq, hne⟩
        · refine .inl ((s.mirror.owing_set_self r.tile q t).2 ?_)
          subst ht
          exact hq
        · rw [hr] at hr'
          cases hr'
          exact .inr (.inl ⟨_, rfl, rfl, List.mem_filter.2 ⟨hq, decide_eq_true hne⟩⟩)
        · exact .inr (.inr hq)
      · rw [s.mirror.kept_set_of_ne t hpp]
        apply hold.mono
        rintro q - (hq | ⟨r', hr', htile, -⟩ | hq)
        · exact .inl ((s.mirror.owing_set_of_ne t hpp).symm ▸ hq)
        · rw [hr] at hr'
          cases hr'
          exact absurd htile.symm hpp
        · exact .inr (.inr hq)
  · cases hs

/-- The tile that was read is left as `t`, which owes what was still to be copied. -/
theorem inv_ended (h : s.Inv) {r : Read} (hr : s.reading = some r) {t : Tile P} {n : Nat}
    (hbitmap : t.bitmap = (s.mirror.tiles r.tile).bitmap)
    (howed : t.owed.Nonempty ∧ t.owed.Within (s.mirror.grid.extent r.tile.1 r.tile.2))
    (hmarked : ∀ q, q ∈ s.marked r.tile → (t.dirty ∧ t.owed.Has q) ∨ q ∈ s.unsaid) :
    Inv { s with
      mirror := { s.mirror.set r.tile t with lastRead := n }, reading := none, place := some (s.mirror.after r.tile) } := by
  obtain ⟨⟨hplace, hrow⟩, hlands⟩ := h.reading r hr
  have hafter := after_place h.valid (h.place r.tile hplace)
  have hvalid : (s.mirror.set r.tile t).Valid := by
    refine h.valid.set (fun _ => howed) ?_ ?_
    · rw [hbitmap]
      exact h.valid.bitmap r.tile
    · rw [hbitmap]
      exact fun _ => hlands.bitmap
  refine ⟨⟨hvalid.good, hvalid.view, hvalid.owed, hvalid.bitmap, hvalid.ready⟩, ?_, ?_, ?_⟩
  · intro p hp
    cases hp
    exact hafter
  · intro r' hr'
    cases hr'
  · intro p hin
    have hkept : (s.mirror.set r.tile t).kept p = s.mirror.kept p := by
      by_cases hpp : p = r.tile
      · funext q
        rw [hpp, Mirror.kept_set_self, hbitmap, Mirror.kept]
      · exact s.mirror.kept_set_of_ne t hpp
    have hnew : Fresh (s.mirror.grid.extent p.1 p.2).Has (s.marked p) (fun q => some (s.desktop q))
        ((s.mirror.set r.tile t).kept p) := by
      rw [hkept]
      exact h.fresh p hin
    apply hnew.mono
    intro q _ hq
    by_cases hpp : p = r.tile
    · subst hpp
      obtain hq | hq := hmarked q hq
      · exact .inl ((s.mirror.owing_set_self r.tile q t).2 hq)
      · exact .inr (.inr hq)
    · obtain hq | ⟨r', hr', htile, -⟩ | hq := hq
      · exact .inl ((s.mirror.owing_set_of_ne t hpp).symm ▸ hq)
      · rw [hr] at hr'
        cases hr'
        exact absurd htile.symm hpp
      · exact .inr (.inr hq)

theorem inv_finish (h : s.Inv) {r : Read} (hr : s.reading = some r) {ok : Bool} (hs : s.finish r ok = some s') : s'.Inv := by
  obtain ⟨⟨hplace, hrow⟩, hlands⟩ := h.reading r hr
  have howed := h.valid.owed r.tile (h.inside hplace hrow)
  unfold finish at hs
  dsimp only at hs
  split at hs
  · split at hs
    · next hnone =>
      cases hs
      apply inv_ended h hr (t := { s.mirror.tiles r.tile with ready := true }) rfl howed
      rintro q (hq | ⟨r', hr', -, hq⟩ | hq)
      · exact .inl hq
      · rw [hr] at hr'
        cases hr'
        rw [hnone] at hq
        cases hq
      · exact .inr hq
    · cases hs
  · cases hs
    apply inv_ended h hr (n := s.mirror.lastRead) (Mirror.owe_bitmap _ _) (Mirror.owe_owed _ hlands.area howed)
    rintro q (hq | ⟨r', hr', -, hq⟩ | hq)
    · exact .inl ⟨Mirror.owe_dirty _ _, Mirror.has_owe (.inl hq)⟩
    · rw [hr] at hr'
      cases hr'
      exact .inl ⟨Mirror.owe_dirty _ _, Mirror.has_owe (.inr (hlands.todo q hq))⟩
    · exact .inr hq

theorem inv_step (blank : P) (h : s.Inv) {a : Action P} (ha : Said a) (hs : s.step blank a = some s') : s'.Inv := by
  cases a with
  | change p v =>
    cases hs
    exact inv_change h p v
  | damaged x y w d =>
    obtain ⟨m, hm, rfl⟩ := Option.map_eq_some_iff.1 hs
    exact inv_damaged h ha.1 ha.2 hm
  | update x0 y0 x1 y1 =>
    unfold step at hs
    dsimp only at hs
    split at hs
    · cases hs
    · next hplace =>
      cases hs
      apply inv_update h
      cases hr : s.reading with
      | none => rfl
      | some r =>
        rw [(h.reading r hr).1.1] at hplace
        cases hplace
  | next =>
    unfold step at hs
    dsimp only at hs
    split at hs
    · cases hs
    · next hr =>
      obtain ⟨p, hp, hs⟩ := Option.bind_eq_some_iff.1 hs
      exact inv_next blank h hp hr hs
  | copy p =>
    obtain ⟨r, hr, hs⟩ := Option.bind_eq_some_iff.1 hs
    exact inv_copy h hr hs
  | finish ok =>
    obtain ⟨r, hr, hs⟩ := Option.bind_eq_some_iff.1 hs
    exact inv_finish h hr hs

theorem inv_start {desktop : Int × Int → P} {desktopW desktopH tileSize : Int32} (hw : 1 ≤ desktopW.toInt) (hh : 1 ≤ desktopH.toInt)
    (ht : 1 ≤ tileSize.toInt) (hfitW : Fits desktopW.toInt tileSize.toInt) (hfitH : Fits desktopH.toInt tileSize.toInt)
    (hs : start desktop desktopW desktopH tileSize = some s) : s.Inv := by
  obtain ⟨m, hm, rfl⟩ := Option.map_eq_some_iff.1 hs
  unfold Mirror.make at hm
  dsimp only at hm
  split at hm
  · cases hm
    have hgood : (Grid.make desktopW.toInt desktopH.toInt tileSize.toInt).Good :=
      ⟨sized_of_fits hfitW hw desktopW.toInt_lt ht tileSize.toInt_lt, sized_of_fits hfitH hh desktopH.toInt_lt ht tileSize.toInt_lt⟩
    have hcols := hgood.across.count_pos
    have hrows := hgood.down.count_pos
    refine ⟨⟨hgood, ⟨⟨Int.le_refl _, Int.le_refl _, hcols⟩, Int.le_refl _, hrows⟩, ?_, ?_, ?_⟩, ?_, ?_, ?_⟩
    · intro p hin
      exact ⟨Grid.extent_nonempty hgood hin, ⟨Int.le_refl _, Int.le_refl _⟩, Int.le_refl _, Int.le_refl _⟩
    · intro p hin b hb
      cases hb
    · intro p hin hready
      cases hready
    · intro p hp
      cases hp
    · intro r hr
      cases hr
    · intro p hin
      exact .of_marked fun q hq => .inl ⟨rfl, hq⟩
  · cases hm

/-! ## The mirror is not stale -/

/-- What a ready tile shows is the desktop's but where that is known to be behind; what is owed, and what is read, is
something of its tile; and the tiles' own areas make up the desktop. -/
structure Sound (s : View P) : Prop where
  shown : ∀ p, s.mirror.grid.Inside p.1 p.2 → (s.mirror.tiles p).ready → ∃ b, (s.mirror.tiles p).bitmap = some b ∧
    ∀ q, (s.mirror.grid.extent p.1 p.2).Has q →
      b.pixel (q.1 - s.mirror.grid.left p.1, q.2 - s.mirror.grid.top p.2) = s.desktop q ∨
        ((s.mirror.tiles p).dirty ∧ (s.mirror.tiles p).owed.Has q) ∨ (∃ r ∈ s.reading, r.tile = p ∧ r.area.Has q) ∨ q ∈ s.unsaid
  owed : ∀ p, s.mirror.grid.Inside p.1 p.2 →
    (s.mirror.tiles p).owed.Nonempty ∧ (s.mirror.tiles p).owed.Within (s.mirror.grid.extent p.1 p.2)
  lands : ∀ r ∈ s.reading, s.mirror.grid.Inside r.tile.1 r.tile.2 ∧ ∃ b, (s.mirror.tiles r.tile).bitmap = some b ∧
    (b.width = s.mirror.grid.tileW + 2 ∧ b.height = s.mirror.grid.tileH + 2) ∧ r.area.Nonempty ∧
      (0 ≤ r.dstX ∧ r.dstX + (r.area.x1 - r.area.x0) ≤ b.width) ∧ 0 ≤ r.dstY ∧ r.dstY + (r.area.y1 - r.area.y0) ≤ b.height
  tiled : s.mirror.grid.Tiled

theorem Inv.sound (h : s.Inv) : s.Sound := by
  refine ⟨?_, h.valid.owed, ?_, Grid.tiled h.valid.good⟩
  · intro p hin hready
    obtain ⟨b, hb⟩ := Option.isSome_iff_exists.1 (h.valid.ready p hin hready)
    refine ⟨b, hb, fun q hq => ?_⟩
    by_cases hm : q ∈ s.marked p
    · rcases hm with hm | ⟨r, hr, rfl, hm⟩ | hm
      · exact .inr (.inl hm)
      · exact .inr (.inr (.inl ⟨r, hr, rfl, (h.reading r hr).2.todo q hm⟩))
      · exact .inr (.inr (.inr hm))
    · have hkept := h.fresh p hin q hq hm
      rw [Mirror.kept, hb] at hkept
      exact .inl (Option.some_inj.1 hkept)
  · intro r hr
    obtain ⟨⟨hplace, hrow⟩, hlands⟩ := h.reading r hr
    have hin := h.inside hplace hrow
    have hsize := Grid.extent_size h.valid.good hin
    obtain ⟨b, hb⟩ := Option.isSome_iff_exists.1 hlands.bitmap
    have hroom := h.valid.bitmap r.tile hin b hb
    obtain ⟨hne, hwithin⟩ := hlands.area
    obtain ⟨hx, hy⟩ := hlands.dst
    simp only [Area.Within, Grid.extent] at hwithin
    exact ⟨hin, b, hb, hroom, hne, by omega⟩

/-- For a desktop whose sums fit, nothing stale is shown in any run whose reports' sums fit. -/
theorem never_stale (blank : P) {desktop : Int × Int → P} {desktopW desktopH tileSize : Int32} (hw : 1 ≤ desktopW.toInt)
    (hh : 1 ≤ desktopH.toInt) (ht : 1 ≤ tileSize.toInt) (hfitW : Fits desktopW.toInt tileSize.toInt)
    (hfitH : Fits desktopH.toInt tileSize.toInt) {s s' : View P} {acts : List (Action P)}
    (hs : start desktop desktopW desktopH tileSize = some s) (hsaid : Meets (step blank) (fun _ => Said) s acts)
    (hrun : run (step blank) s acts = some s') : s'.Sound := by
  have hinv : s'.Inv := trace_inv (fun _ => Inv) (inv_start hw hh ht hfitW hfitH hs)
    (fun _ _ _ _ hi ha hstep => inv_step blank hi ha hstep) hsaid hrun
  exact hinv.sound

instance (a : Action P) : Decidable (Said a) :=
  match a with
  | .change _ _ | .update _ _ _ _ | .next | .copy _ | .finish _ => isTrue trivial
  | .damaged _ _ _ _ => inferInstanceAs (Decidable (_ ∧ _))

/-- A tile of two by one is read, and a pixel of it changes and is reported. -/
def readOnce : List (Action Bool) :=
  [.update 0 0 1 1, .next, .copy (0, 0), .copy (1, 0), .finish true, .change (0, 0) true, .damaged 0 0 1 1]

theorem never_stale_readOnce : ∃ s s', start (fun _ => false) 2 1 1 = some s ∧ run (step false) s readOnce = some s' ∧
    ((s'.mirror.tiles (0, 0)).ready ∧ (s'.mirror.tiles (0, 0)).dirty) ∧ s'.Sound := by
  obtain ⟨s, hs⟩ : ∃ s, start (fun _ => false) 2 1 1 = some s := ⟨_, rfl⟩
  obtain ⟨s', hrun⟩ : ∃ s', run (step false) s readOnce = some s' := by
    cases hs
    exact ⟨_, rfl⟩
  refine ⟨s, s', hs, hrun, ?_, never_stale false (by decide) (by decide) (by decide) ⟨by decide, by decide, by decide⟩
    ⟨by decide, by decide, by decide⟩ hs ?_ hrun⟩
  · cases hs
    cases hrun
    exact ⟨rfl, rfl⟩
  · cases hs
    decide

/-- The whole of an int each way is one more than fits, so that the report is taken for an empty one. -/
theorem widest_report_missed : ¬∀ (P : Type) (blank : P) (desktop : Int × Int → P) (desktopW desktopH tileSize : Int32),
    1 ≤ desktopW.toInt → 1 ≤ desktopH.toInt → 1 ≤ tileSize.toInt → ∀ (s s' : View P) (acts : List (Action P)),
      start desktop desktopW desktopH tileSize = some s → run (step blank) s acts = some s' → s'.Sound := by
  intro h
  have hsound := h Bool false (fun _ => false) 1 1 1 (by decide) (by decide) (by decide) _ _
    [.update 0 0 1 1, .next, .copy (0, 0), .finish true, .change (0, 0) true, .damaged 0 0 2147483647 2147483647] rfl rfl
  obtain ⟨b, hb, hshown⟩ := hsound.shown (0, 0) (by decide) rfl
  cases hb
  rcases hshown (0, 0) (by decide) with hq | hq | ⟨r, hr, -⟩ | hq
  · exact absurd hq (by decide)
  · exact absurd hq.1 (by decide)
  · cases hr
  · exact absurd hq (by decide)

end View

end Mirror

end Vento.Session
