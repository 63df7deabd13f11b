import Mathlib.Algebra.Order.Ring.Int
import Mathlib.Data.Set.Insert
import Mathlib.Logic.Function.Basic
import Mathlib.Tactic.Common
/-!
# Tiles, and copies that are kept by marks

A line cut into tiles of one length, of which none is empty (`Cut`), each with a margin of one from its neighbours
(`near`, `far`). `Cut.reached` is what lets damage be found again: a tile that holds a place has an index between those
of the two ends of what was damaged around it.

`Fresh` says of a copy of part of a source that it differs from it at marked places only. A change marks its place
(`Fresh.write`), and fetching a place may unmark it (`Fresh.fetch`).
-/

namespace Vento.Lib

/-! ## Lines cut into tiles -/

/-- A line of `size` in `count` tiles of `tile`, of which the last may be short. -/
structure Cut (size tile count : Int) : Prop where
  tile_pos : 0 < tile
  count_pos : 0 < count
  last : (count - 1) * tile < size
  covered : size ≤ count * tile

/-- Where a tile starts with its margin, and where it ends. -/
def near (tile k : Int) : Int := max 0 (k * tile - 1)

def far (size tile k : Int) : Int := min size ((k + 1) * tile + 1)

/-- As many parts of length `b` as it takes to cover `a`. -/
def parts (a b : Int) : Int := (a + b - 1) / b

theorem parts_le_iff {a b : Int} (hb : 0 < b) (c : Int) : parts a b ≤ c ↔ a ≤ c * b := by
  rw [parts, Int.ediv_le_iff_le_mul hb]
  omega

theorem lt_parts_iff {a b : Int} (hb : 0 < b) (c : Int) : c < parts a b ↔ c * b < a := by
  have h := parts_le_iff (a := a) hb c
  omega

/-- Divided evenly into as many parts as there would be of length `t`, none is empty. -/
theorem cut_even {size t : Int} (hsize : 0 < size) (ht : 0 < t) : Cut size (parts size (parts size t)) (parts size t) := by
  have hcount : 0 < parts size t := (lt_parts_iff ht 0).2 (by omega)
  have hlast : (parts size t - 1) * t < size := (lt_parts_iff ht _).1 (by omega)
  have htile : parts size (parts size t) ≤ t := by
    rw [parts_le_iff hcount, Int.mul_comm]
    exact (parts_le_iff ht _).1 (Int.le_refl _)
  refine ⟨(lt_parts_iff hcount 0).2 (by omega), hcount, ?_, ?_⟩
  · exact Int.lt_of_le_of_lt (Int.mul_le_mul_of_nonneg_left htile (by omega)) hlast
  · rw [Int.mul_comm]
    exact (parts_le_iff hcount _).1 (Int.le_refl _)

/-- A line of one tile. -/
theorem cut_one {size : Int} (hsize : 0 < size) : Cut size size 1 :=
  ⟨hsize, by omega, by omega, by omega⟩

namespace Cut

variable {size tile count k p : Int}

theorem start_lt (h : Cut size tile count) (hk : k < count) : k * tile < size :=
  Int.lt_of_le_of_lt (Int.mul_le_mul_of_nonneg_right (by omega) (Int.le_of_lt h.tile_pos)) h.last

theorem end_le (h : Cut size tile count) (hk : k < count) : (k + 1) * tile ≤ count * tile :=
  Int.mul_le_mul_of_nonneg_right (by omega) (Int.le_of_lt h.tile_pos)

theorem start_nonneg (h : Cut size tile count) (hk : 0 ≤ k) : 0 ≤ k * tile := Int.mul_nonneg hk (Int.le_of_lt h.tile_pos)

/-- Every place is in one tile. -/
theorem mem_iff (h : Cut size tile count) (hp : p < size) :
    k * tile ≤ p ∧ p < k * tile + min tile (size - k * tile) ↔ k = p / tile := by
  have hnext : (k + 1) * tile = k * tile + tile := by rw [Int.add_mul, Int.one_mul]
  have hlow := Int.le_ediv_iff_mul_le (a := k) (b := p) h.tile_pos
  have hhigh := Int.ediv_lt_iff_lt_mul (a := p) (b := k + 1) h.tile_pos
  omega

theorem index_mem (h : Cut size tile count) (hlow : 0 ≤ p) (hp : p < size) : 0 ≤ p / tile ∧ p / tile < count := by
  refine ⟨Int.ediv_nonneg hlow (Int.le_of_lt h.tile_pos), (Int.ediv_lt_iff_lt_mul h.tile_pos).2 ?_⟩
  exact Int.lt_of_lt_of_le hp h.covered

theorem near_lt_far (h : Cut size tile count) (hk : 0 ≤ k) (hk' : k < count) : near tile k < far size tile k := by
  have hstart := h.start_lt hk'
  have hnonneg := h.start_nonneg hk
  have hnext : (k + 1) * tile = k * tile + tile := by rw [Int.add_mul, Int.one_mul]
  have htile := h.tile_pos
  unfold near far
  omega

/-- A tile that holds a place, its margin included, is among those that the surroundings of the place reach. -/
theorem reached (h : Cut size tile count) {x0 x1 : Int} (hk : 0 ≤ k) (hk' : k < count) (hp : near tile k ≤ p)
    (hp' : p < far size tile k) (hx0 : x0 ≤ max 0 (p - 1)) (hx1 : min size (p + 2) ≤ x1) :
    x0 / tile ≤ k ∧ k ≤ (x1 - 1) / tile := by
  have hstart := h.start_lt hk'
  have hnonneg := h.start_nonneg hk
  have hnext : (k + 1) * tile = k * tile + tile := by rw [Int.add_mul, Int.one_mul]
  have htile := h.tile_pos
  unfold near at hp
  unfold far at hp'
  constructor
  · apply Int.le_of_lt_add_one
    rw [Int.ediv_lt_iff_lt_mul htile]
    omega
  · rw [Int.le_ediv_iff_mul_le htile]
    omega

end Cut

/-! ## Copies kept by marks -/

variable {L V : Type}

/-- A copy of the places of `part` differs from its source at marked ones only. -/
def Fresh (part marked : Set L) (source kept : L → V) : Prop := ∀ l ∈ part, l ∉ marked → kept l = source l

namespace Fresh

variable {part marked marked' : Set L} {source kept : L → V}

theorem of_marked (h : part ⊆ marked) : Fresh part marked source kept := fun _ hl hm => absurd (h hl) hm

theorem mono (hf : Fresh part marked source kept) (h : ∀ l ∈ part, l ∈ marked → l ∈ marked') : Fresh part marked' source kept :=
  fun l hl hm => hf l hl fun hl' => hm (h l hl hl')

variable [DecidableEq L]

theorem write (hf : Fresh part marked source kept) (l : L) (v : V) :
    Fresh part (insert l marked) (Function.update source l v) kept := by
  intro l' hl' hm
  rw [Set.mem_insert_iff, not_or] at hm
  rw [Function.update_of_ne hm.1]
  exact hf l' hl' hm.2

theorem fetch (hf : Fresh part marked source kept) (l : L) :
    Fresh part (marked \ {l}) source (Function.update kept l (source l)) := by
  intro l' hl' hm
  by_cases h : l' = l
  · rw [h, Function.update_self]
  · rw [Function.update_of_ne h]
    exact hf l' hl' fun hm' => hm ⟨hm', h⟩

end Fresh

end Vento.Lib
