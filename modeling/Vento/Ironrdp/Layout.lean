import Mathlib.Data.List.Pairwise
import Mathlib.Tactic.Common
import Vento.Lib.Spans
/-!
# Layouts of an RDP client

`divided` and `arranged` of `ironrdp/src/client.rs`: a desktop divided between monitors, and screens put into the
shape that the protocol takes. The sizes it takes are the library's to say, so `adjust` is a parameter.

A screen is moved by what the sizes of all that end before it change by, in whichever row or column they are.
`arranged_iff` says for which lists that keeps them apart and adjacent.
-/

namespace Vento.Ironrdp

open Vento.Lib

structure Screen where
  x : Int32
  y : Int32
  width : UInt32
  height : UInt32
deriving DecidableEq, Repr

/-- `count` monitors side by side, the last taking the remainder of the width. -/
def divided (width height : UInt32) (count : UInt8) : List Screen :=
  let count := (if count < 1 then 1 else count).toUInt32
  let each := width / count
  (List.range count.toNat).map fun i =>
    let i := UInt32.ofNat i
    let w := if i = count - 1 then width - each * (count - 1) else each
    ⟨(i * each).toInt32, 0, w, height⟩

/-- Screens adjusted to what the protocol accepts, the first at the origin. -/
def arranged (adjust : UInt32 → UInt32 → UInt32 × UInt32) (screens : List Screen) : List Screen :=
  let sizes := screens.map fun s => adjust s.width s.height
  let moved := screens.map fun s =>
    (screens.zip sizes).foldl (fun n o =>
      (if o.1.x + o.1.width.toInt32 ≤ s.x then n.1 - (o.1.width.toInt32 - o.2.1.toInt32) else n.1,
        if o.1.y + o.1.height.toInt32 ≤ s.y then n.2 - (o.1.height.toInt32 - o.2.2.toInt32) else n.2)) (s.x, s.y)
  let origin := moved.headD (0, 0)
  (moved.zip sizes).map fun p => ⟨p.1.1 - origin.1, p.1.2 - origin.2, p.2.1, p.2.2⟩

namespace Screen

def left (s : Screen) : Int := s.x.toInt

def right (s : Screen) : Int := s.x.toInt + s.width.toNat

def top (s : Screen) : Int := s.y.toInt

def bottom (s : Screen) : Int := s.y.toInt + s.height.toNat

def Overlaps (a b : Screen) : Prop := a.left < b.right ∧ b.left < a.right ∧ a.top < b.bottom ∧ b.top < a.bottom

/-- `a` touches `b` along its right edge. -/
def LeftOf (a b : Screen) : Prop := a.right = b.left ∧ a.top < b.bottom ∧ b.top < a.bottom

/-- `a` touches `b` along its bottom edge. -/
def Above (a b : Screen) : Prop := a.bottom = b.top ∧ a.left < b.right ∧ b.left < a.right

instance (a b : Screen) : Decidable (a.Overlaps b) := inferInstanceAs (Decidable (_ ∧ _))

instance (a b : Screen) : Decidable (a.LeftOf b) := inferInstanceAs (Decidable (_ ∧ _))

instance (a b : Screen) : Decidable (a.Above b) := inferInstanceAs (Decidable (_ ∧ _))

end Screen

/-! ## A desktop divided -/

/-- Screens side by side from `p` to `q`, each of the one height. -/
def Row (height : UInt32) (p : Int) : List Screen → Int → Prop
  | [], q => p = q
  | s :: screens, q => s.left = p ∧ s.y = 0 ∧ s.height = height ∧ Row height s.right screens q

theorem toInt32_toInt_eq (u : UInt32) : u.toInt32 = Int32.ofInt u.toNat := by
  rw [Int32.ofInt_eq_ofNat, ← UInt32.toInt32_ofNat', UInt32.ofNat_toNat]

theorem toInt_toInt32 (u : UInt32) : u.toInt32.toInt = u.toNat ↔ u.toNat < 2 ^ 31 := by
  have hlt := u.toNat_lt
  rw [toInt32_toInt_eq]
  constructor
  · intro h
    have hle := (Int32.ofInt u.toNat).toInt_lt
    omega
  · intro h
    exact Int32.toInt_ofInt_of_le (by omega) (by omega)

theorem row_append {height : UInt32} {l l' : List Screen} {p r : Int} :
    Row height p (l ++ l') r ↔ ∃ q, Row height p l q ∧ Row height q l' r := by
  induction l generalizing p with
  | nil => simp [Row]
  | cons s l ih => simp [Row, ih, and_assoc]

/-- Screens of one width are a row if each is where those before it end. -/
theorem row_equal {height each : UInt32} {q : Int} (m : Nat) (f : Nat → Screen)
    (hf : ∀ i, i < m → (f i).width = each ∧ (f i).y = 0 ∧ (f i).height = height) :
    Row height 0 ((List.range m).map f) q ↔ q = m * each.toNat ∧ ∀ i, i < m → (f i).left = i * each.toNat := by
  induction m generalizing q with
  | zero => simp [Row, eq_comm]
  | succ m ih =>
    have hlast := hf m (Nat.lt_succ_self m)
    rw [List.range_succ, List.map_append, row_append]
    constructor
    · rintro ⟨p, hrow, hp, -, -, hq⟩
      obtain ⟨rfl, hall⟩ := (ih fun i hi => hf i (Nat.lt_succ_of_lt hi)).1 hrow
      have hq' : (f m).right = q := hq
      refine ⟨?_, fun i hi => ?_⟩
      · have hright : (f m).right = (f m).left + each.toNat := by rw [Screen.right, Screen.left, hlast.1]
        rw [← hq', hright, hp, Nat.cast_succ, add_mul, one_mul]
      · rcases Nat.lt_succ_iff_lt_or_eq.1 hi with hi | rfl
        · exact hall i hi
        · exact hp
    · rintro ⟨rfl, hall⟩
      refine ⟨m * each.toNat, (ih fun i hi => hf i (Nat.lt_succ_of_lt hi)).2 ⟨rfl, fun i hi => hall i (Nat.lt_succ_of_lt hi)⟩,
        hall m (Nat.lt_succ_self m), hlast.2.1, hlast.2.2, ?_⟩
      show (f m).right = _
      have hright : (f m).right = (f m).left + each.toNat := by rw [Screen.right, Screen.left, hlast.1]
      rw [hright, hall m (Nat.lt_succ_self m), Nat.cast_succ, add_mul, one_mul]

/-- A desktop is divided, its monitors abutting, unless one starts past what 32 bits can tell. -/
theorem divided_iff (width height : UInt32) (count : UInt8) :
    ((divided width height count).length = max count.toNat 1 ∧ Row height 0 (divided width height count) width.toNat) ↔
      (max count.toNat 1 - 1) * (width.toNat / max count.toNat 1) < 2 ^ 31 := by
  unfold divided
  dsimp only
  have hn : (if count < 1 then 1 else count).toUInt32.toNat = max count.toNat 1 := by
    rw [UInt8.toNat_toUInt32]
    split
    · next h =>
      have hzero : count.toNat < 1 := UInt8.lt_iff_toNat_lt.1 h
      rw [Nat.max_eq_right (Nat.le_of_lt hzero)]
      rfl
    · next h =>
      have hpos : ¬count.toNat < 1 := fun hlt => h (UInt8.lt_iff_toNat_lt.2 hlt)
      rw [Nat.max_eq_left (Nat.not_lt.1 hpos)]
  have hlt := count.toNat_lt
  generalize (if count < 1 then 1 else count).toUInt32 = N at hn ⊢
  generalize hm : max count.toNat 1 = n at hn ⊢
  have hpos : 0 < n := by omega
  have hsmall : n ≤ 255 := by omega
  obtain ⟨m, rfl⟩ : ∃ m, n = m + 1 := ⟨n - 1, by omega⟩
  have hwidth := width.toNat_lt
  have heach : (width / N).toNat = width.toNat / (m + 1) := by rw [UInt32.toNat_div, hn]
  generalize hE : width / N = each at heach ⊢
  have hmul : (m + 1) * each.toNat ≤ width.toNat := by
    rw [heach]
    exact Nat.mul_div_le _ _
  have hprev : (N - 1).toNat = m := by
    rw [UInt32.toNat_sub_of_le _ _ (UInt32.le_iff_toNat_le.2 (by rw [hn]; exact Nat.le_add_left 1 m)), hn]
    rfl
  have hofNat : ∀ i, i < m + 1 → (UInt32.ofNat i).toNat = i := fun i hi =>
    UInt32.toNat_ofNat_of_lt' (show i < 4294967296 by omega)
  have hleft : ∀ i, i < m + 1 → ((UInt32.ofNat i * each).toNat = i * each.toNat) := by
    intro i hi
    rw [UInt32.toNat_mul, hofNat i hi, Nat.mod_eq_of_lt]
    exact Nat.lt_of_le_of_lt (Nat.le_trans (Nat.mul_le_mul_right _ (Nat.le_of_lt hi)) hmul) hwidth
  generalize hf : (fun i : Nat => (⟨(UInt32.ofNat i * each).toInt32, 0,
    if UInt32.ofNat i = N - 1 then width - each * (N - 1) else each, height⟩ : Screen)) = f
  have hplace : ∀ i, i < m + 1 → ((f i).left = (i * each.toNat : Nat) ↔ i * each.toNat < 2 ^ 31) := by
    intro i hi
    rw [← hf, Screen.left]
    dsimp only
    rw [← hleft i hi]
    exact toInt_toInt32 _
  have hlast : (f m).width.toNat = width.toNat - m * each.toNat := by
    have heq : UInt32.ofNat m = N - 1 := UInt32.toNat_inj.1 (by rw [hofNat m (Nat.lt_succ_self m), hprev])
    have hcast : (each * (N - 1)).toNat = m * each.toNat := by
      rw [← heq, UInt32.mul_comm, hleft m (Nat.lt_succ_self m)]
    rw [← hf]
    dsimp only
    rw [if_pos heq, UInt32.toNat_sub_of_le _ _ (UInt32.le_iff_toNat_le.2 ?_), hcast]
    rw [hcast]
    exact Nat.le_trans (Nat.mul_le_mul_right _ (Nat.le_succ m)) hmul
  have hbefore : ∀ i, i < m → (f i).width = each ∧ (f i).y = 0 ∧ (f i).height = height := by
    intro i hi
    have hne : UInt32.ofNat i ≠ N - 1 := by
      intro heq
      have hnat := congrArg UInt32.toNat heq
      rw [hofNat i (Nat.lt_succ_of_lt hi), hprev] at hnat
      omega
    rw [← hf]
    exact ⟨if_neg hne, rfl, rfl⟩
  rw [hn, List.length_map, List.length_range, List.range_succ, List.map_append, row_append]
  constructor
  · rintro ⟨-, q, hrow, hq, -⟩
    obtain ⟨rfl, -⟩ := (row_equal m f hbefore).1 hrow
    rw [Nat.add_sub_cancel, ← heach]
    exact (hplace m (Nat.lt_succ_self m)).1 (by rw [hq, Nat.cast_mul])
  · intro hfits
    rw [Nat.add_sub_cancel, ← heach] at hfits
    have hall : ∀ i, i < m + 1 → (f i).left = i * each.toNat := by
      intro i hi
      rw [(hplace i hi).2 (Nat.lt_of_le_of_lt (Nat.mul_le_mul_right _ (Nat.le_of_lt_succ hi)) hfits), Nat.cast_mul]
    refine ⟨rfl, m * each.toNat, (row_equal m f hbefore).2 ⟨rfl, fun i hi => hall i (Nat.lt_succ_of_lt hi)⟩,
      hall m (Nat.lt_succ_self m), ?_, ?_, ?_⟩
    · rw [← hf]
    · rw [← hf]
    · show (f m).right = _
      have hle : m * each.toNat ≤ width.toNat := Nat.le_trans (Nat.mul_le_mul_right _ (Nat.le_succ m)) hmul
      rw [Screen.right, ← Screen.left, hall m (Nat.lt_succ_self m), hlast, ← Nat.cast_mul, ← Nat.cast_add]
      exact congrArg Nat.cast (Nat.add_sub_of_le hle)

/-! ## Screens arranged -/

section Arranged

variable (adjust : UInt32 → UInt32 → UInt32 × UInt32) (screens : List Screen)

/-- The library's sizes: 200 to 8192 pixels each way, and an even width. -/
def Adjusts : Prop :=
  ∀ w h, (adjust w h).1.toNat = 2 * (min (max w.toNat 200) 8192 / 2) ∧ (adjust w h).2.toNat = min (max h.toNat 200) 8192

namespace Screen

/-- A screen from left to right, and from top to bottom. -/
def across (s : Screen) : Span := ⟨s.left, s.width.toNat, (adjust s.width s.height).1.toNat⟩

def down (s : Screen) : Span := ⟨s.top, s.height.toNat, (adjust s.width s.height).2.toNat⟩

end Screen

/-- The widths that the screens ending between the left edges of `a` and of `b` lose are no more than the gap between the two. -/
def ClearAcross (a b : Screen) : Prop :=
  Span.between (screens.map (·.across adjust)) (a.across adjust) (b.across adjust) ≤ b.left - a.right

def ClearDown (a b : Screen) : Prop :=
  Span.between (screens.map (·.down adjust)) (a.down adjust) (b.down adjust) ≤ b.top - a.bottom

instance (a b : Screen) : Decidable (ClearAcross adjust screens a b) := inferInstanceAs (Decidable (_ ≤ _))

instance (a b : Screen) : Decidable (ClearDown adjust screens a b) := inferInstanceAs (Decidable (_ ≤ _))

/-- No more is lost between two screens than lies between them, one way or the other, and between two that touch
nothing in sum. -/
structure Spared : Prop where
  apart : screens.Pairwise fun a b => ClearAcross adjust screens a b ∨ ClearAcross adjust screens b a ∨
    ClearDown adjust screens a b ∨ ClearDown adjust screens b a
  beside : ∀ a ∈ screens, ∀ b ∈ screens, a.LeftOf b →
    Span.between (screens.map (·.across adjust)) (a.across adjust) (b.across adjust) = 0 ∧
      ¬ClearDown adjust screens a b ∧ ¬ClearDown adjust screens b a
  below : ∀ a ∈ screens, ∀ b ∈ screens, a.Above b →
    Span.between (screens.map (·.down adjust)) (a.down adjust) (b.down adjust) = 0 ∧
      ¬ClearAcross adjust screens a b ∧ ¬ClearAcross adjust screens b a

/-- No sum that is made of the screens needs more than 32 bits. -/
structure Fits : Prop where
  across : ∀ s ∈ screens, s.right < 2 ^ 31
  down : ∀ s ∈ screens, s.bottom < 2 ^ 31
  spread : ∀ s ∈ screens, ∀ o ∈ screens, |s.left - o.left| + Span.change (screens.map (·.across adjust)) < 2 ^ 31
  spreadDown : ∀ s ∈ screens, ∀ o ∈ screens, |s.top - o.top| + Span.change (screens.map (·.down adjust)) < 2 ^ 31

/-- What `out` is to be for `screens`: the first at the origin, each of its adjusted size, none overlapping another, and
those that touch touching as before. -/
structure Kept (out : List Screen) : Prop where
  first : ∀ s ∈ out.head?, s.x = 0 ∧ s.y = 0
  sizes : out.map (fun s => (s.width, s.height)) = screens.map fun s => adjust s.width s.height
  taken : ∀ s ∈ out, (200 ≤ s.width.toNat ∧ s.width.toNat ≤ 8192 ∧ s.width.toNat % 2 = 0) ∧ 200 ≤ s.height.toNat ∧ s.height.toNat ≤ 8192
  apart : out.Pairwise fun a b => ¬a.Overlaps b
  touching : ∀ p ∈ screens.zip out, ∀ q ∈ screens.zip out,
    (p.1.LeftOf q.1 → p.2.LeftOf q.2) ∧ (p.1.Above q.1 → p.2.Above q.2)

/-- Where a screen is put, beside `origin`. -/
def place (origin s : Screen) : Screen :=
  ⟨Int32.ofInt (Span.moved (screens.map (·.across adjust)) (s.across adjust) -
      Span.moved (screens.map (·.across adjust)) (origin.across adjust)),
    Int32.ofInt (Span.moved (screens.map (·.down adjust)) (s.down adjust) -
      Span.moved (screens.map (·.down adjust)) (origin.down adjust)),
    (adjust s.width s.height).1, (adjust s.width s.height).2⟩

variable {adjust screens}

theorem right_le_iff {s o : Screen} (h : o.right < 2 ^ 31) : o.x + o.width.toInt32 ≤ s.x ↔ (o.across adjust).stop ≤ s.left := by
  have hx := o.x.le_toInt
  have hsum : (o.x + o.width.toInt32).toInt = o.right := by
    have hcast : o.x + o.width.toInt32 = Int32.ofInt o.right := by
      rw [Screen.right, Int32.ofInt_add, Int32.ofInt_toInt, toInt32_toInt_eq]
    rw [hcast, Int32.toInt_ofInt_of_le _ h]
    rw [Screen.right]
    omega
  rw [Int32.le_iff_toInt_le, hsum]
  rfl

theorem bottom_le_iff {s o : Screen} (h : o.bottom < 2 ^ 31) : o.y + o.height.toInt32 ≤ s.y ↔ (o.down adjust).stop ≤ s.top := by
  have hy := o.y.le_toInt
  have hsum : (o.y + o.height.toInt32).toInt = o.bottom := by
    have hcast : o.y + o.height.toInt32 = Int32.ofInt o.bottom := by
      rw [Screen.bottom, Int32.ofInt_add, Int32.ofInt_toInt, toInt32_toInt_eq]
    rw [hcast, Int32.toInt_ofInt_of_le _ h]
    rw [Screen.bottom]
    omega
  rw [Int32.le_iff_toInt_le, hsum]
  rfl

/-- The others move a screen by what those of them that end before it lose. -/
theorem moved_foldl {s : Screen} {l : List Screen} (hacross : ∀ o ∈ l, o.right < 2 ^ 31) (hdown : ∀ o ∈ l, o.bottom < 2 ^ 31)
    (x y : Int) :
    (l.zip (l.map fun o => adjust o.width o.height)).foldl (fun n o =>
      (if o.1.x + o.1.width.toInt32 ≤ s.x then n.1 - (o.1.width.toInt32 - o.2.1.toInt32) else n.1,
        if o.1.y + o.1.height.toInt32 ≤ s.y then n.2 - (o.1.height.toInt32 - o.2.2.toInt32) else n.2))
        (Int32.ofInt x, Int32.ofInt y) =
      (Int32.ofInt (x - Span.lostBy (l.map (·.across adjust)) s.left),
        Int32.ofInt (y - Span.lostBy (l.map (·.down adjust)) s.top)) := by
  induction l generalizing x y with
  | nil => simp [Span.lostBy_nil]
  | cons o l ih =>
    have hx : (if o.x + o.width.toInt32 ≤ s.x then Int32.ofInt x - (o.width.toInt32 - (adjust o.width o.height).1.toInt32) else
        Int32.ofInt x) = Int32.ofInt (x - if (o.across adjust).stop ≤ s.left then (o.across adjust).lost else 0) := by
      by_cases h : (o.across adjust).stop ≤ s.left
      · rw [if_pos ((right_le_iff (hacross o List.mem_cons_self)).2 h), if_pos h, Int32.ofInt_sub, toInt32_toInt_eq, toInt32_toInt_eq,
          ← Int32.ofInt_sub]
        rfl
      · rw [if_neg (mt (right_le_iff (hacross o List.mem_cons_self)).1 h), if_neg h, Int.sub_zero]
    have hy : (if o.y + o.height.toInt32 ≤ s.y then Int32.ofInt y - (o.height.toInt32 - (adjust o.width o.height).2.toInt32) else
        Int32.ofInt y) = Int32.ofInt (y - if (o.down adjust).stop ≤ s.top then (o.down adjust).lost else 0) := by
      by_cases h : (o.down adjust).stop ≤ s.top
      · rw [if_pos ((bottom_le_iff (hdown o List.mem_cons_self)).2 h), if_pos h, Int32.ofInt_sub, toInt32_toInt_eq, toInt32_toInt_eq,
          ← Int32.ofInt_sub]
        rfl
      · rw [if_neg (mt (bottom_le_iff (hdown o List.mem_cons_self)).1 h), if_neg h, Int.sub_zero]
    rw [List.map_cons, List.zip_cons_cons, List.foldl_cons]
    dsimp only
    rw [hx, hy, ih (fun o ho => hacross o (List.mem_cons_of_mem _ ho)) (fun o ho => hdown o (List.mem_cons_of_mem _ ho)),
      List.map_cons, List.map_cons, Span.lostBy_cons, Span.lostBy_cons, Int.sub_sub, Int.sub_sub]

/-- Screens that fit are put where they are to be. -/
theorem arranged_eq (hfit : Fits adjust screens) :
    ∀ origin ∈ screens.head?, arranged adjust screens = screens.map (place adjust screens origin) := by
  intro origin horigin
  have hmoved : ∀ s : Screen, (screens.zip (screens.map fun o => adjust o.width o.height)).foldl (fun n o =>
      (if o.1.x + o.1.width.toInt32 ≤ s.x then n.1 - (o.1.width.toInt32 - o.2.1.toInt32) else n.1,
        if o.1.y + o.1.height.toInt32 ≤ s.y then n.2 - (o.1.height.toInt32 - o.2.2.toInt32) else n.2)) (s.x, s.y) =
      (Int32.ofInt (Span.moved (screens.map (·.across adjust)) (s.across adjust)),
        Int32.ofInt (Span.moved (screens.map (·.down adjust)) (s.down adjust))) := by
    intro s
    have hfold := @moved_foldl adjust s screens hfit.across hfit.down s.x.toInt s.y.toInt
    rw [Int32.ofInt_toInt, Int32.ofInt_toInt] at hfold
    exact hfold
  unfold arranged
  dsimp only
  obtain ⟨rest, hrest⟩ := List.head?_eq_some_iff.1 horigin
  simp only [hmoved]
  have hhead : (screens.map fun s => (Int32.ofInt (Span.moved (screens.map (·.across adjust)) (s.across adjust)),
      Int32.ofInt (Span.moved (screens.map (·.down adjust)) (s.down adjust)))).headD (0, 0) =
      (Int32.ofInt (Span.moved (screens.map (·.across adjust)) (origin.across adjust)),
        Int32.ofInt (Span.moved (screens.map (·.down adjust)) (origin.down adjust))) := by
    rw [List.headD_eq_head?_getD, List.head?_map, horigin]
    rfl
  rw [hhead, List.zip_map', List.map_map]
  apply List.map_congr_left
  intro s _
  simp only [Function.comp_apply, place, Int32.ofInt_sub]

theorem moved_sub_mem {l : List Span} {s o : Span} (h : |s.start - o.start| + Span.change l < 2 ^ 31) :
    -2 ^ 31 ≤ Span.moved l s - Span.moved l o ∧ Span.moved l s - Span.moved l o < 2 ^ 31 := by
  have hlost := Span.abs_lostBy_sub_le l s.start o.start
  have hsplit : Span.moved l s - Span.moved l o = (s.start - o.start) - (Span.lostBy l s.start - Span.lostBy l o.start) := by
    simp only [Span.moved]
    omega
  have habs := le_abs_self (s.start - o.start)
  have hneg := neg_abs_le (s.start - o.start)
  have hupper := le_abs_self (Span.lostBy l s.start - Span.lostBy l o.start)
  have hlower := neg_abs_le (Span.lostBy l s.start - Span.lostBy l o.start)
  rw [hsplit]
  omega

theorem left_place (hfit : Fits adjust screens) {origin s : Screen} (ho : origin ∈ screens) (hs : s ∈ screens) :
    (place adjust screens origin s).left = Span.moved (screens.map (·.across adjust)) (s.across adjust) -
      Span.moved (screens.map (·.across adjust)) (origin.across adjust) := by
  obtain ⟨hlo, hhi⟩ := moved_sub_mem (s := s.across adjust) (o := origin.across adjust) (hfit.spread s hs origin ho)
  exact Int32.toInt_ofInt_of_le hlo hhi

theorem top_place (hfit : Fits adjust screens) {origin s : Screen} (ho : origin ∈ screens) (hs : s ∈ screens) :
    (place adjust screens origin s).top = Span.moved (screens.map (·.down adjust)) (s.down adjust) -
      Span.moved (screens.map (·.down adjust)) (origin.down adjust) := by
  obtain ⟨hlo, hhi⟩ := moved_sub_mem (s := s.down adjust) (o := origin.down adjust) (hfit.spreadDown s hs origin ho)
  exact Int32.toInt_ofInt_of_le hlo hhi

/-- The gap between two screens changes by what is lost between them. -/
theorem gap_place (hfit : Fits adjust screens) {origin a b : Screen} (ho : origin ∈ screens) (ha : a ∈ screens) (hb : b ∈ screens) :
    (place adjust screens origin b).left - (place adjust screens origin a).right =
      (b.left - a.right) - Span.between (screens.map (·.across adjust)) (a.across adjust) (b.across adjust) := by
  have hgap := Span.moved_gap (screens.map (·.across adjust)) (a.across adjust) (b.across adjust)
  have hright : (place adjust screens origin a).right = (place adjust screens origin a).left + (a.across adjust).now := rfl
  have hstop : (a.across adjust).stop = a.right := rfl
  have hstart : (b.across adjust).start = b.left := rfl
  rw [hright, left_place hfit ho ha, left_place hfit ho hb]
  rw [hstop, hstart] at hgap
  omega

theorem gap_place_down (hfit : Fits adjust screens) {origin a b : Screen} (ho : origin ∈ screens) (ha : a ∈ screens)
    (hb : b ∈ screens) :
    (place adjust screens origin b).top - (place adjust screens origin a).bottom =
      (b.top - a.bottom) - Span.between (screens.map (·.down adjust)) (a.down adjust) (b.down adjust) := by
  have hgap := Span.moved_gap (screens.map (·.down adjust)) (a.down adjust) (b.down adjust)
  have hbottom : (place adjust screens origin a).bottom = (place adjust screens origin a).top + (a.down adjust).now := rfl
  have hstop : (a.down adjust).stop = a.bottom := rfl
  have hstart : (b.down adjust).start = b.top := rfl
  rw [hbottom, top_place hfit ho ha, top_place hfit ho hb]
  rw [hstop, hstart] at hgap
  omega

theorem clearAcross_iff (hfit : Fits adjust screens) {origin a b : Screen} (ho : origin ∈ screens) (ha : a ∈ screens)
    (hb : b ∈ screens) :
    ClearAcross adjust screens a b ↔ ¬(place adjust screens origin b).left < (place adjust screens origin a).right := by
  have hgap := gap_place hfit ho ha hb
  rw [ClearAcross]
  omega

theorem clearDown_iff (hfit : Fits adjust screens) {origin a b : Screen} (ho : origin ∈ screens) (ha : a ∈ screens)
    (hb : b ∈ screens) :
    ClearDown adjust screens a b ↔ ¬(place adjust screens origin b).top < (place adjust screens origin a).bottom := by
  have hgap := gap_place_down hfit ho ha hb
  rw [ClearDown]
  omega

theorem not_overlaps_place_iff (hfit : Fits adjust screens) {origin a b : Screen} (ho : origin ∈ screens) (ha : a ∈ screens)
    (hb : b ∈ screens) :
    ¬(place adjust screens origin a).Overlaps (place adjust screens origin b) ↔
      ClearAcross adjust screens a b ∨ ClearAcross adjust screens b a ∨ ClearDown adjust screens a b ∨
        ClearDown adjust screens b a := by
  rw [clearAcross_iff hfit ho ha hb, clearAcross_iff hfit ho hb ha, clearDown_iff hfit ho ha hb, clearDown_iff hfit ho hb ha,
    Screen.Overlaps]
  tauto

theorem leftOf_place_iff (hfit : Fits adjust screens) {origin a b : Screen} (ho : origin ∈ screens) (ha : a ∈ screens)
    (hb : b ∈ screens) (h : a.LeftOf b) :
    (place adjust screens origin a).LeftOf (place adjust screens origin b) ↔
      Span.between (screens.map (·.across adjust)) (a.across adjust) (b.across adjust) = 0 ∧
        ¬ClearDown adjust screens a b ∧ ¬ClearDown adjust screens b a := by
  have hgap := gap_place hfit ho ha hb
  have htouch := h.1
  rw [clearDown_iff hfit ho ha hb, clearDown_iff hfit ho hb ha, not_not, not_not, Screen.LeftOf]
  constructor
  · rintro ⟨heq, htop, hbottom⟩
    exact ⟨by omega, hbottom, htop⟩
  · rintro ⟨hzero, hbottom, htop⟩
    exact ⟨by omega, htop, hbottom⟩

theorem above_place_iff (hfit : Fits adjust screens) {origin a b : Screen} (ho : origin ∈ screens) (ha : a ∈ screens)
    (hb : b ∈ screens) (h : a.Above b) :
    (place adjust screens origin a).Above (place adjust screens origin b) ↔
      Span.between (screens.map (·.down adjust)) (a.down adjust) (b.down adjust) = 0 ∧
        ¬ClearAcross adjust screens a b ∧ ¬ClearAcross adjust screens b a := by
  have hgap := gap_place_down hfit ho ha hb
  have htouch := h.1
  rw [clearAcross_iff hfit ho ha hb, clearAcross_iff hfit ho hb ha, not_not, not_not, Screen.Above]
  constructor
  · rintro ⟨heq, hleft, hright⟩
    exact ⟨by omega, hright, hleft⟩
  · rintro ⟨hzero, hright, hleft⟩
    exact ⟨by omega, hleft, hright⟩

theorem taken_of_adjusts (hadjust : Adjusts adjust) (w h : UInt32) :
    (200 ≤ (adjust w h).1.toNat ∧ (adjust w h).1.toNat ≤ 8192 ∧ (adjust w h).1.toNat % 2 = 0) ∧
      200 ≤ (adjust w h).2.toNat ∧ (adjust w h).2.toNat ≤ 8192 := by
  obtain ⟨hw, hh⟩ := hadjust w h
  omega

/-- Screens are kept as they lie exactly if no more is lost between any two than there is between them. -/
theorem arranged_iff (hadjust : Adjusts adjust) (hfit : Fits adjust screens) :
    Kept adjust screens (arranged adjust screens) ↔ Spared adjust screens := by
  cases hscreens : screens.head? with
  | none =>
    rw [List.head?_eq_none_iff] at hscreens
    subst hscreens
    exact iff_of_true ⟨by simp [arranged], rfl, by simp [arranged], by simp [arranged], by simp⟩ ⟨.nil, by simp, by simp⟩
  | some origin =>
    have ho : origin ∈ screens := List.mem_of_mem_head? hscreens
    rw [arranged_eq hfit origin hscreens]
    have hzip : ∀ p, p ∈ screens.zip (screens.map (place adjust screens origin)) ↔ ∃ s ∈ screens, p = (s, place adjust screens origin s) := by
      intro p
      rw [List.zip_map_right, ← List.map_id screens, List.zip_map', List.map_map, List.mem_map, List.map_id]
      simp only [Function.comp_apply, eq_comm, id_eq, Prod.map_apply]
    constructor
    · intro h
      refine ⟨?_, ?_, ?_⟩
      · refine List.Pairwise.imp_of_mem ?_ (List.pairwise_map.1 h.apart)
        intro a b ha hb hab
        exact (not_overlaps_place_iff hfit ho ha hb).1 hab
      · intro a ha b hb hab
        exact (leftOf_place_iff hfit ho ha hb hab).1 ((h.touching _ ((hzip _).2 ⟨a, ha, rfl⟩) _ ((hzip _).2 ⟨b, hb, rfl⟩)).1 hab)
      · intro a ha b hb hab
        exact (above_place_iff hfit ho ha hb hab).1 ((h.touching _ ((hzip _).2 ⟨a, ha, rfl⟩) _ ((hzip _).2 ⟨b, hb, rfl⟩)).2 hab)
    · intro h
      refine ⟨?_, ?_, ?_, ?_, ?_⟩
      · intro s hs
        rw [List.head?_map, hscreens] at hs
        cases hs
        constructor
        · show Int32.ofInt _ = 0
          rw [Int.sub_self]
          rfl
        · show Int32.ofInt _ = 0
          rw [Int.sub_self]
          rfl
      · rw [List.map_map]
        rfl
      · intro s hs
        obtain ⟨s', -, rfl⟩ := List.mem_map.1 hs
        exact taken_of_adjusts hadjust _ _
      · refine List.pairwise_map.2 (List.Pairwise.imp_of_mem ?_ h.apart)
        intro a b ha hb hab
        exact (not_overlaps_place_iff hfit ho ha hb).2 hab
      · intro p hp q hq
        obtain ⟨a, ha, rfl⟩ := (hzip p).1 hp
        obtain ⟨b, hb, rfl⟩ := (hzip q).1 hq
        exact ⟨fun hab => (leftOf_place_iff hfit ho ha hb hab).2 (h.beside a ha b hb hab),
          fun hab => (above_place_iff hfit ho ha hb hab).2 (h.below a ha b hb hab)⟩

/-- Screens of sizes that are taken as they are keep their places. -/
theorem spared_of_taken (hsame : ∀ s ∈ screens, adjust s.width s.height = (s.width, s.height))
    (hnone : screens.Pairwise fun a b => ¬a.Overlaps b) : Spared adjust screens := by
  have hlost : ∀ (f : Screen → Span) (l : List Screen) (p : Int), (∀ s ∈ l, (f s).lost = 0) → Span.lostBy (l.map f) p = 0 := by
    intro f l p hl
    induction l with
    | nil => rfl
    | cons s l ih =>
      rw [List.map_cons, Span.lostBy_cons, hl s List.mem_cons_self, ih fun o ho => hl o (List.mem_cons_of_mem _ ho)]
      simp
  have hacross : ∀ s ∈ screens, (s.across adjust).lost = 0 := by
    intro s hs
    rw [Span.lost, Screen.across, hsame s hs]
    exact Int.sub_self _
  have hdown : ∀ s ∈ screens, (s.down adjust).lost = 0 := by
    intro s hs
    rw [Span.lost, Screen.down, hsame s hs]
    exact Int.sub_self _
  have hbetween : ∀ a ∈ screens, ∀ b : Screen, Span.between (screens.map (·.across adjust)) (a.across adjust) (b.across adjust) = 0 := by
    intro a ha b
    rw [Span.between, hlost _ _ _ hacross, hlost _ _ _ hacross, hacross a ha]
    rfl
  have hbetween' : ∀ a ∈ screens, ∀ b : Screen, Span.between (screens.map (·.down adjust)) (a.down adjust) (b.down adjust) = 0 := by
    intro a ha b
    rw [Span.between, hlost _ _ _ hdown, hlost _ _ _ hdown, hdown a ha]
    rfl
  have hclear : ∀ a ∈ screens, ∀ b, ClearAcross adjust screens a b ↔ ¬b.left < a.right := by
    intro a ha b
    rw [ClearAcross, hbetween a ha b]
    omega
  have hclear' : ∀ a ∈ screens, ∀ b, ClearDown adjust screens a b ↔ ¬b.top < a.bottom := by
    intro a ha b
    rw [ClearDown, hbetween' a ha b]
    omega
  refine ⟨List.Pairwise.imp_of_mem ?_ hnone, ?_, ?_⟩
  · intro a b ha hb hab
    rw [hclear a ha, hclear b hb, hclear' a ha, hclear' b hb]
    unfold Screen.Overlaps at hab
    tauto
  · intro a ha b hb hab
    rw [hclear' a ha, hclear' b hb, not_not, not_not]
    exact ⟨hbetween a ha b, hab.2.2, hab.2.1⟩
  · intro a ha b hb hab
    rw [hclear a ha, hclear b hb, not_not, not_not]
    exact ⟨hbetween' a ha b, hab.2.2, hab.2.1⟩

end Arranged

end Vento.Ironrdp
