import Vento.Freerdp.Layout
import Vento.Lib.Extreme
import Vento.Lib.Raster
/-!
# The monitors of an RDP server

`heard` and `covers` of `ironrdp/src/client.rs`, and `flattenLayout` and `covers` of `freerdp/cpp/freerdp_session.c`,
which read a server's monitors. Their corners are any 32-bit numbers: the one client computes in 32 bits, where `none`
is an overflow, and the other in 64, where `none` is a layout that it refuses.

`monitors_alike` says for which monitors the two read the same.
-/

namespace Vento.Freerdp

open Vento.Lib hiding Rect

/-- The corners of a monitor, inclusive. -/
structure Monitor where
  left : Int32
  top : Int32
  right : Int32
  bottom : Int32
deriving DecidableEq, Repr

end Vento.Freerdp

namespace Vento.Ironrdp

open Vento.Lib hiding Rect
open Vento.Freerdp

/-- An `i32`, if it is one. -/
def checked (n : Int) : Option Int32 := if -2 ^ 31 ≤ n ∧ n < 2 ^ 31 then some (Int32.ofInt n) else none

def add (a b : Int32) : Option Int32 := checked (a.toInt + b.toInt)

def sub (a b : Int32) : Option Int32 := checked (a.toInt - b.toInt)

/-- The server's layout, four ints each. -/
def heard (monitors : List Monitor) : Option (List Rect) :=
  let left := (least? (monitors.map (·.left))).getD 0
  let top := (least? (monitors.map (·.top))).getD 0
  (monitors.take 16).mapM fun m => do
    let w ← add (← sub m.right m.left) 1
    let h ← add (← sub m.bottom m.top) 1
    let x ← sub m.left left
    let y ← sub m.top top
    pure ⟨x, y, w, h⟩

/-- Whether monitors divide a desktop this size. -/
def covers (flat : List Rect) (width height : Nat) : Option Bool :=
  if flat = [] ∨ flat.any fun m => m.x < 0 ∨ m.y < 0 then some false
  else do
    let right := (greatest? (← flat.mapM fun m => add m.x m.w)).getD 0
    let bottom := (greatest? (← flat.mapM fun m => add m.y m.h)).getD 0
    pure (right.toInt = width ∧ bottom.toInt = height)

end Vento.Ironrdp

namespace Vento.Freerdp

open Vento.Lib hiding Rect

def maxDesktopSide : Int64 := 32766

def flattenLayout (defs : List Monitor) : Option (List Rect) :=
  let left := (least? (defs.map (·.left.toInt64))).getD 0
  let top := (least? (defs.map (·.top.toInt64))).getD 0
  defs.mapM fun d =>
    let x := d.left.toInt64 - left
    let y := d.top.toInt64 - top
    let w := d.right.toInt64 - d.left.toInt64 + 1
    let h := d.bottom.toInt64 - d.top.toInt64 + 1
    if w < 1 ∨ h < 1 ∨ maxDesktopSide < x + w ∨ maxDesktopSide < y + h then none
    else some ⟨x.toInt32, y.toInt32, w.toInt32, h.toInt32⟩

def covers (flat : List Rect) (w h : Int32) : Bool :=
  if flat = [] ∨ flat.any fun m => m.x < 0 ∨ m.y < 0 then false
  else
    let right := (flat.map fun m => m.x.toInt64 + m.w.toInt64).foldl (fun right r => if right < r then r else right) 0
    let bottom := (flat.map fun m => m.y.toInt64 + m.h.toInt64).foldl (fun bottom b => if bottom < b then b else bottom) 0
    right = w.toInt64 ∧ bottom = h.toInt64

/-- The one client overflows nowhere, and says that the monitors cover a desktop exactly if the other takes them and says
so. What they both have then is the same rectangles, none of them empty, in the desktop. -/
structure Alike (monitors : List Monitor) (width height : Nat) : Prop where
  heard : ∃ flat, Ironrdp.heard monitors = some flat ∧ ∃ b, Ironrdp.covers flat width height = some b ∧
    (b = true ↔ ∃ flat', flattenLayout monitors = some flat' ∧ covers flat' (Int32.ofNat width) (Int32.ofNat height) = true) ∧
    (b = true → flattenLayout monitors = some flat ∧ ∀ r ∈ flat, 0 ≤ r.x.toInt ∧ 0 < r.w.toInt ∧ r.x.toInt + r.w.toInt ≤ width ∧
      0 ≤ r.y.toInt ∧ 0 < r.h.toInt ∧ r.y.toInt + r.h.toInt ≤ height)

/-! ## One side of the desktop

The corners are those on a monitor's one side, `lo`, and on the other, `hi`. -/

section Side

variable (lo hi : Monitor → Int32) (monitors : List Monitor)

/-- From any monitor's near corner to any far one 32 bits tell how far it is. -/
def Narrow : Prop :=
  ∀ m ∈ monitors, -2 ^ 31 ≤ (hi m).toInt - (lo m).toInt ∧ ∀ o ∈ monitors, (lo m).toInt - (lo o).toInt < 2 ^ 31 ∧
    (hi m).toInt - (lo o).toInt + 1 < 2 ^ 31

/-- The bounding box of the monitors is `n` pixels from one end to the other. -/
def Spans (n : Int) : Prop :=
  (∀ m ∈ monitors, ∀ o ∈ monitors, (hi m).toInt - (lo o).toInt + 1 ≤ n) ∧
    ∃ m ∈ monitors, ∃ o ∈ monitors, (hi m).toInt - (lo o).toInt + 1 = n

instance : Decidable (Narrow lo hi monitors) := inferInstanceAs (Decidable (∀ m ∈ monitors, _ ∧ ∀ o ∈ monitors, _))

instance (n : Int) : Decidable (Spans lo hi monitors n) := inferInstanceAs (Decidable (_ ∧ ∃ m ∈ monitors, _))

/-- Where the first of the monitors starts. -/
def start : Int := (least? (monitors.map fun m => (lo m).toInt)).getD 0

/-- A monitor's size and place on one side are told by 32 bits. -/
def FitsSide (m : Monitor) : Prop :=
  -2 ^ 31 ≤ (hi m).toInt - (lo m).toInt ∧ (hi m).toInt - (lo m).toInt + 1 < 2 ^ 31 ∧
    -2 ^ 31 ≤ (lo m).toInt - start lo monitors ∧ (lo m).toInt - start lo monitors < 2 ^ 31

instance (m : Monitor) : Decidable (FitsSide lo hi monitors m) := inferInstanceAs (Decidable (_ ∧ _))

variable {lo hi monitors}

variable (lo) in
theorem start_le {m : Monitor} (hm : m ∈ monitors) : start lo monitors ≤ (lo m).toInt := by
  have hmem : (lo m).toInt ∈ monitors.map fun m => (lo m).toInt := List.mem_map_of_mem hm
  obtain ⟨a, ha⟩ := exists_least? (List.ne_nil_of_mem hmem)
  have hstart : start lo monitors = a := by rw [start, ha, Option.getD_some]
  rw [hstart]
  exact (least?_eq_some_iff.1 ha).2 _ hmem

variable (lo) in
theorem exists_start {m : Monitor} (hm : m ∈ monitors) : ∃ o ∈ monitors, (lo o).toInt = start lo monitors := by
  have hne : (monitors.map fun m => (lo m).toInt) ≠ [] := List.ne_nil_of_mem (List.mem_map_of_mem hm)
  obtain ⟨a, ha⟩ := exists_least? hne
  have hstart : start lo monitors = a := by rw [start, ha, Option.getD_some]
  rw [hstart]
  exact List.mem_map.1 (least?_eq_some_iff.1 ha).1

variable (lo monitors) in
theorem toInt_start : ((least? (monitors.map lo)).getD 0).toInt = start lo monitors := by
  have hmap := least?_map Int32.toInt (fun _ _ => Int32.lt_iff_toInt_lt.symm) (monitors.map lo)
  rw [List.map_map] at hmap
  unfold start
  rw [show (fun m => (lo m).toInt) = Int32.toInt ∘ lo from rfl, hmap]
  cases least? (monitors.map lo) with
  | none => rfl
  | some a => rfl

variable (lo) in
theorem start_int64 : (least? (monitors.map fun m => (lo m).toInt64)).getD 0 = Int64.ofInt (start lo monitors) := by
  have hmap := least?_map Int64.toInt (fun _ _ => Int64.lt_iff_toInt_lt.symm) (monitors.map fun m => (lo m).toInt64)
  have hcomp : (Int64.toInt ∘ fun m => (lo m).toInt64) = fun m => (lo m).toInt := funext fun m => Int32.toInt_toInt64 (lo m)
  rw [List.map_map, hcomp] at hmap
  unfold start
  rw [hmap]
  cases least? (monitors.map fun m => (lo m).toInt64) with
  | none => rfl
  | some a => exact (Int64.ofInt_toInt a).symm

/-- The last of the ends is where the bounding box ends. -/
theorem greatest_ends (n : Int) :
    greatest? (monitors.map fun m => (hi m).toInt - start lo monitors + 1) = some n ↔ Spans lo hi monitors n := by
  rw [greatest?_eq_some_iff, List.mem_map, List.forall_mem_map]
  constructor
  · rintro ⟨⟨m, hm, hend⟩, hall⟩
    obtain ⟨o, ho, hlo⟩ := exists_start lo hm
    refine ⟨fun m' hm' o' ho' => ?_, m, hm, o, ho, by omega⟩
    have hle := hall m' hm'
    have hstart := start_le lo ho'
    omega
  · rintro ⟨hall, m, hm, o, ho, hend⟩
    obtain ⟨o', ho', hlo⟩ := exists_start lo hm
    have hstart := start_le lo ho
    have hle := hall m hm o' ho'
    refine ⟨⟨m, hm, by omega⟩, fun m' hm' => ?_⟩
    have hle' := hall m' hm' o' ho'
    omega

/-- What 32 bits tell of each monitor and of the sum of its size and place. -/
theorem narrow_iff :
    Narrow lo hi monitors ↔
      (∀ m ∈ monitors, FitsSide lo hi monitors m) ∧ ∀ m ∈ monitors, (hi m).toInt - start lo monitors + 1 < 2 ^ 31 := by
  constructor
  · intro h
    constructor
    · intro m hm
      obtain ⟨o, ho, hlo⟩ := exists_start lo hm
      obtain ⟨hsize, hall⟩ := h m hm
      have hstart := start_le lo hm
      refine ⟨hsize, (hall m hm).2, by omega, ?_⟩
      rw [← hlo]
      exact (hall o ho).1
    · intro m hm
      obtain ⟨o, ho, hlo⟩ := exists_start lo hm
      rw [← hlo]
      exact ((h m hm).2 o ho).2
  · -- No other starts before the first, so that what fits from there fits from it.
    rintro ⟨hfits, hsum⟩ m hm
    refine ⟨(hfits m hm).1, fun o ho => ?_⟩
    have hstart := start_le lo ho
    have hplace := (hfits m hm).2.2.2
    have hend := hsum m hm
    omega

end Side

/-- A monitor's place and size, of the desktop that starts where the first of them does. -/
def Monitor.rect (monitors : List Monitor) (m : Monitor) : Rect :=
  ⟨Int32.ofInt (m.left.toInt - start Monitor.left monitors), Int32.ofInt (m.top.toInt - start Monitor.top monitors),
    Int32.ofInt (m.right.toInt - m.left.toInt + 1), Int32.ofInt (m.bottom.toInt - m.top.toInt + 1)⟩

end Vento.Freerdp

namespace Vento.Ironrdp

open Vento.Lib hiding Rect
open Vento.Freerdp

/-! ## In 32 bits -/

theorem sized_eq (a b : Int32) :
    (sub a b >>= fun d => add d 1) = if -2 ^ 31 ≤ a.toInt - b.toInt ∧ a.toInt - b.toInt + 1 < 2 ^ 31 then
      some (Int32.ofInt (a.toInt - b.toInt + 1)) else none := by
  unfold sub add checked
  by_cases hlo : -2 ^ 31 ≤ a.toInt - b.toInt ∧ a.toInt - b.toInt < 2 ^ 31
  · have hone : (1 : Int32).toInt = 1 := rfl
    rw [if_pos hlo]
    show (if _ then _ else _) = _
    rw [Int32.toInt_ofInt_of_le hlo.1 hlo.2, hone]
    exact if_congr ⟨fun h => ⟨hlo.1, h.2⟩, fun h => ⟨by omega, h.2⟩⟩ rfl rfl
  · rw [if_neg hlo, if_neg (by omega)]
    rfl

/-- The rectangles of monitors whose places and sizes 32 bits tell. -/
theorem heard_eq {monitors : List Monitor} (hlen : monitors.length ≤ 16) :
    heard monitors =
      if ∀ m ∈ monitors, FitsSide Monitor.left Monitor.right monitors m ∧ FitsSide Monitor.top Monitor.bottom monitors m then
        some (monitors.map (Monitor.rect monitors)) else none := by
  unfold heard
  rw [List.take_of_length_le hlen, ← mapM_ite (Monitor.rect monitors)]
  refine congrArg (monitors.mapM ·) (funext fun m => ?_)
  have hleft := toInt_start Monitor.left monitors
  have htop := toInt_start Monitor.top monitors
  calc
    _ = (sub m.right m.left >>= fun d => add d 1) >>= fun w => (sub m.bottom m.top >>= fun d => add d 1) >>= fun h =>
          sub m.left ((least? (monitors.map (·.left))).getD 0) >>= fun x =>
            sub m.top ((least? (monitors.map (·.top))).getD 0) >>= fun y => pure ⟨x, y, w, h⟩ := by
      simp only [bind_assoc]
    _ = _ := by
      rw [sized_eq, sized_eq, sub, sub, checked, checked, hleft, htop]
      simp only [ite_bind, ← ite_and]
      refine if_congr ?_ rfl rfl
      simp only [FitsSide]
      tauto

/-- Where each monitor ends, on one side. -/
theorem ends_eq {lo hi : Monitor → Int32} {monitors : List Monitor} (h : ∀ m ∈ monitors, FitsSide lo hi monitors m) :
    (monitors.mapM fun m => add (Int32.ofInt ((lo m).toInt - start lo monitors)) (Int32.ofInt ((hi m).toInt - (lo m).toInt + 1))) =
      if ∀ m ∈ monitors, (hi m).toInt - start lo monitors + 1 < 2 ^ 31 then
        some (monitors.map fun m => Int32.ofInt ((hi m).toInt - start lo monitors + 1)) else none := by
  rw [← mapM_ite fun m => Int32.ofInt ((hi m).toInt - start lo monitors + 1)]
  apply mapM_congr
  intro m hm
  obtain ⟨hsize, hsize', hplace, hplace'⟩ := h m hm
  have hstart := start_le lo hm
  rw [add, checked, Int32.toInt_ofInt_of_le hplace hplace', Int32.toInt_ofInt_of_le (by omega) hsize']
  have hsum : (lo m).toInt - start lo monitors + ((hi m).toInt - (lo m).toInt + 1) = (hi m).toInt - start lo monitors + 1 := by
    omega
  rw [hsum]
  exact if_congr ⟨fun h => h.2, fun h => ⟨by omega, h⟩⟩ rfl rfl

theorem greatest_ends_int32 {lo hi : Monitor → Int32} {monitors : List Monitor} (hne : monitors ≠ [])
    (h : ∀ m ∈ monitors, FitsSide lo hi monitors m) (hend : ∀ m ∈ monitors, (hi m).toInt - start lo monitors + 1 < 2 ^ 31) (n : Int) :
    ((greatest? (monitors.map fun m => Int32.ofInt ((hi m).toInt - start lo monitors + 1))).getD 0).toInt = n ↔
      Spans lo hi monitors n := by
  have hexact : (monitors.map fun m => Int32.ofInt ((hi m).toInt - start lo monitors + 1)).map Int32.toInt =
      monitors.map fun m => (hi m).toInt - start lo monitors + 1 := by
    rw [List.map_map]
    apply List.map_congr_left
    intro m hm
    have hstart := start_le lo hm
    have hsize := (h m hm).1
    exact Int32.toInt_ofInt_of_le (by omega) (hend m hm)
  obtain ⟨a, ha⟩ := exists_greatest? (l := monitors.map fun m => Int32.ofInt ((hi m).toInt - start lo monitors + 1)) (by simpa using hne)
  rw [← greatest_ends, ← hexact, greatest?_map Int32.toInt (fun _ _ => Int32.lt_iff_toInt_lt.symm), ha]
  simp

/-- Nothing starts before the first of the monitors. -/
theorem none_before {monitors : List Monitor} (hx : ∀ m ∈ monitors, FitsSide Monitor.left Monitor.right monitors m)
    (hy : ∀ m ∈ monitors, FitsSide Monitor.top Monitor.bottom monitors m) :
    ((monitors.map (Monitor.rect monitors)).any fun m => m.x < 0 ∨ m.y < 0) = false := by
  rw [List.any_eq_false]
  intro r hr
  obtain ⟨m, hm, rfl⟩ := List.mem_map.1 hr
  have hleft := start_le Monitor.left hm
  have htop := start_le Monitor.top hm
  have hzero : (0 : Int32).toInt = 0 := rfl
  rw [decide_eq_true_eq, Int32.lt_iff_toInt_lt, Int32.lt_iff_toInt_lt, Monitor.rect, Int32.toInt_ofInt_of_le (hx m hm).2.2.1 (hx m hm).2.2.2,
    Int32.toInt_ofInt_of_le (hy m hm).2.2.1 (hy m hm).2.2.2]
  omega

/-- Where the sums fit, the monitors are said to cover their bounding box. -/
theorem covers_eq {monitors : List Monitor} (hne : monitors ≠ [])
    (hx : ∀ m ∈ monitors, FitsSide Monitor.left Monitor.right monitors m)
    (hy : ∀ m ∈ monitors, FitsSide Monitor.top Monitor.bottom monitors m) (width height : Nat) :
    covers (monitors.map (Monitor.rect monitors)) width height =
      if (∀ m ∈ monitors, m.right.toInt - start Monitor.left monitors + 1 < 2 ^ 31) ∧
          ∀ m ∈ monitors, m.bottom.toInt - start Monitor.top monitors + 1 < 2 ^ 31 then
        some (decide (Spans Monitor.left Monitor.right monitors width ∧ Spans Monitor.top Monitor.bottom monitors height))
      else none := by
  have hpos : ¬(monitors.map (Monitor.rect monitors) = [] ∨
      ((monitors.map (Monitor.rect monitors)).any fun m => m.x < 0 ∨ m.y < 0) = true) := by
    rw [none_before hx hy, List.map_eq_nil_iff]
    simp [hne]
  unfold covers
  rw [if_neg hpos, List.mapM_map, List.mapM_map]
  show (monitors.mapM (fun m => add (Int32.ofInt (m.left.toInt - start Monitor.left monitors))
      (Int32.ofInt (m.right.toInt - m.left.toInt + 1))) >>= fun rights =>
    monitors.mapM (fun m => add (Int32.ofInt (m.top.toInt - start Monitor.top monitors))
      (Int32.ofInt (m.bottom.toInt - m.top.toInt + 1))) >>= fun bottoms => _) = _
  rw [ends_eq hx, ends_eq hy, ite_bind, ite_bind, ← ite_and]
  split
  · next hends =>
    refine congrArg some (decide_eq_decide.2 ?_)
    exact and_congr (greatest_ends_int32 hne hx hends.1 _) (greatest_ends_int32 hne hy hends.2 _)
  · rfl

end Vento.Ironrdp

namespace Vento.Freerdp

open Vento.Lib hiding Rect
open Vento.Ironrdp

/-! ## In 64 bits -/

/-- A monitor is at least a pixel on one side, and ends in the largest desktop. -/
def InDesktop (lo hi : Monitor → Int32) (monitors : List Monitor) (m : Monitor) : Prop :=
  1 ≤ (hi m).toInt - (lo m).toInt + 1 ∧ (hi m).toInt - start lo monitors + 1 ≤ 32766

instance (lo hi : Monitor → Int32) (monitors : List Monitor) (m : Monitor) : Decidable (InDesktop lo hi monitors m) :=
  inferInstanceAs (Decidable (_ ∧ _))

section Side

variable {lo hi : Monitor → Int32} {monitors : List Monitor}

variable (lo monitors) in
theorem start_mem : -2 ^ 31 ≤ start lo monitors ∧ start lo monitors < 2 ^ 31 := by
  rw [← toInt_start lo]
  exact ⟨Int32.le_toInt _, Int32.toInt_lt _⟩

theorem InDesktop.fits {m : Monitor} (h : InDesktop lo hi monitors m) (hm : m ∈ monitors) : FitsSide lo hi monitors m := by
  have hstart := start_le lo hm
  obtain ⟨hsize, hend⟩ := h
  exact ⟨by omega, by omega, by omega, by omega⟩

theorem toInt64_eq (x : Int32) : x.toInt64 = Int64.ofInt x.toInt := by
  rw [← Int64.toInt_inj, Int32.toInt_toInt64, Int64.toInt_ofInt_of_le]
  · have hlo := x.le_toInt
    omega
  · have hhi := x.toInt_lt
    omega

variable (lo) in
/-- What is refused on one side. -/
theorem inDesktop_iff (m : Monitor) :
    ¬(Int64.ofInt ((hi m).toInt - (lo m).toInt + 1) < 1 ∨ maxDesktopSide < Int64.ofInt ((hi m).toInt - start lo monitors + 1)) ↔
      InDesktop lo hi monitors m := by
  have hlo := (lo m).le_toInt
  have hlo' := (lo m).toInt_lt
  have hhi := (hi m).le_toInt
  have hhi' := (hi m).toInt_lt
  obtain ⟨hstart, hstart'⟩ := start_mem lo monitors
  have hone : (1 : Int64).toInt = 1 := rfl
  have hside : maxDesktopSide.toInt = 32766 := rfl
  rw [Int64.lt_iff_toInt_lt, Int64.lt_iff_toInt_lt, Int64.toInt_ofInt_of_le (by omega) (by omega),
    Int64.toInt_ofInt_of_le (by omega) (by omega), hone, hside, InDesktop]
  omega

end Side

/-- The same rectangles, of monitors that are a desktop. -/
theorem flattenLayout_eq (monitors : List Monitor) :
    flattenLayout monitors =
      if ∀ m ∈ monitors, InDesktop Monitor.left Monitor.right monitors m ∧ InDesktop Monitor.top Monitor.bottom monitors m then
        some (monitors.map (Monitor.rect monitors)) else none := by
  unfold flattenLayout
  rw [← mapM_ite (Monitor.rect monitors)]
  refine congrArg (monitors.mapM ·) (funext fun m => ?_)
  have hone : (1 : Int64) = Int64.ofInt 1 := rfl
  have hright : m.left.toInt - start Monitor.left monitors + (m.right.toInt - m.left.toInt + 1) =
      m.right.toInt - start Monitor.left monitors + 1 := by omega
  have hbottom : m.top.toInt - start Monitor.top monitors + (m.bottom.toInt - m.top.toInt + 1) =
      m.bottom.toInt - start Monitor.top monitors + 1 := by omega
  dsimp only
  rw [start_int64 Monitor.left, start_int64 Monitor.top, toInt64_eq, toInt64_eq, toInt64_eq, toInt64_eq]
  simp only [hone, ← Int64.ofInt_sub, ← Int64.ofInt_add, hright, hbottom, Int64.toInt32_ofInt]
  rw [← ite_not]
  refine if_congr ?_ rfl rfl
  rw [← inDesktop_iff Monitor.left, ← inDesktop_iff Monitor.top, hone]
  tauto

/-- The greatest of sums that are all positive, in 64 bits. -/
theorem foldl_ends {lo hi : Monitor → Int32} {monitors : List Monitor} (hne : monitors ≠ [])
    (h : ∀ m ∈ monitors, InDesktop lo hi monitors m) (n : Int32) :
    (monitors.map fun m => (Int32.ofInt ((lo m).toInt - start lo monitors)).toInt64 +
        (Int32.ofInt ((hi m).toInt - (lo m).toInt + 1)).toInt64).foldl (fun g v => if g < v then v else g) 0 = n.toInt64 ↔
      Spans lo hi monitors n.toInt := by
  have hexact : (monitors.map fun m => (Int32.ofInt ((lo m).toInt - start lo monitors)).toInt64 +
        (Int32.ofInt ((hi m).toInt - (lo m).toInt + 1)).toInt64).map Int64.toInt =
      monitors.map fun m => (hi m).toInt - start lo monitors + 1 := by
    rw [List.map_map]
    apply List.map_congr_left
    intro m hm
    obtain ⟨hsize, hsize', hplace, hplace'⟩ := (h m hm).fits hm
    obtain ⟨hpos, hend⟩ := h m hm
    have hstart := start_le lo hm
    show ((Int32.ofInt ((lo m).toInt - start lo monitors)).toInt64 + (Int32.ofInt ((hi m).toInt - (lo m).toInt + 1)).toInt64).toInt = _
    rw [toInt64_eq, toInt64_eq, Int32.toInt_ofInt_of_le hplace hplace', Int32.toInt_ofInt_of_le (by omega) hsize', ← Int64.ofInt_add,
      Int64.toInt_ofInt_of_le (by omega) (by omega)]
    omega
  have hfold := greatest?_map Int64.toInt (fun _ _ => Int64.lt_iff_toInt_lt.symm)
    (0 :: monitors.map fun m => (Int32.ofInt ((lo m).toInt - start lo monitors)).toInt64 +
      (Int32.ofInt ((hi m).toInt - (lo m).toInt + 1)).toInt64)
  -- The loop starts from zero, which no end is below.
  have hpos : ∀ v ∈ monitors.map fun m => (hi m).toInt - start lo monitors + 1, (0 : Int64).toInt ≤ v := by
    rw [List.forall_mem_map]
    intro m hm
    have hstart := start_le lo hm
    have hsize := (h m hm).1
    show (0 : Int) ≤ _
    omega
  rw [List.map_cons, hexact, greatest?_cons_of_le (by simpa using hne) hpos] at hfold
  rw [← Int64.toInt_inj, Int32.toInt_toInt64, ← greatest_ends, hfold, greatest?_cons]
  exact Option.some_inj.symm

/-- Monitors that are a desktop cover their bounding box. -/
theorem covers_iff {monitors : List Monitor} (hne : monitors ≠ [])
    (hx : ∀ m ∈ monitors, InDesktop Monitor.left Monitor.right monitors m)
    (hy : ∀ m ∈ monitors, InDesktop Monitor.top Monitor.bottom monitors m) (w h : Int32) :
    covers (monitors.map (Monitor.rect monitors)) w h = true ↔
      Spans Monitor.left Monitor.right monitors w.toInt ∧ Spans Monitor.top Monitor.bottom monitors h.toInt := by
  unfold covers
  rw [Ironrdp.none_before (fun m hm => (hx m hm).fits hm) fun m hm => (hy m hm).fits hm, if_neg (by simp [hne]), List.map_map, List.map_map,
    decide_eq_true_eq]
  exact and_congr (foldl_ends hne hx w) (foldl_ends hne hy h)

/-! ## Both -/

/-- A monitor of at least a pixel ends in a bounding box that is a desktop. -/
theorem Spans.inDesktop {lo hi : Monitor → Int32} {monitors : List Monitor} {n : Nat} (h : Spans lo hi monitors n) (hn : n ≤ 32766)
    {m : Monitor} (hm : m ∈ monitors) (hpixel : lo m ≤ hi m) :
    InDesktop lo hi monitors m ∧ (hi m).toInt - start lo monitors + 1 ≤ n := by
  obtain ⟨o, ho, hlo⟩ := exists_start lo hm
  have hend := h.1 m hm o ho
  have hle := Int32.le_iff_toInt_le.1 hpixel
  exact ⟨⟨by omega, by omega⟩, by omega⟩

/-- The rectangle lies so on one side, with a pixel at least. -/
theorem InDesktop.placed {lo hi : Monitor → Int32} {monitors : List Monitor} {m : Monitor} (h : InDesktop lo hi monitors m)
    (hm : m ∈ monitors) {n : Nat} (hn : (hi m).toInt - start lo monitors + 1 ≤ n) :
    0 ≤ (Int32.ofInt ((lo m).toInt - start lo monitors)).toInt ∧ 0 < (Int32.ofInt ((hi m).toInt - (lo m).toInt + 1)).toInt ∧
      (Int32.ofInt ((lo m).toInt - start lo monitors)).toInt + (Int32.ofInt ((hi m).toInt - (lo m).toInt + 1)).toInt ≤ n := by
  obtain ⟨hsize, hsize', hplace, hplace'⟩ := h.fits hm
  have hstart := start_le lo hm
  have hpixel := h.1
  rw [Int32.toInt_ofInt_of_le hplace hplace', Int32.toInt_ofInt_of_le (by omega) hsize']
  omega

theorem toInt_ofNat {n : Nat} (h : n ≤ 32766) : (Int32.ofNat n).toInt = n := Int32.toInt_ofNat_of_lt (by omega)

/-- The two clients read some monitors alike, of a desktop of some size, if 32 bits tell what is computed of them and each is at
least a pixel each way, or the desktop is not their bounding box. -/
theorem alike_iff {monitors : List Monitor} (hlen : monitors.length ≤ 16) {width height : Nat} (hwidth : width ≤ 32766)
    (hheight : height ≤ 32766) :
    Alike monitors width height ↔
      (Narrow Monitor.left Monitor.right monitors ∧ Narrow Monitor.top Monitor.bottom monitors) ∧
        (Spans Monitor.left Monitor.right monitors width → Spans Monitor.top Monitor.bottom monitors height →
          ∀ m ∈ monitors, m.left ≤ m.right ∧ m.top ≤ m.bottom) := by
  have hw := toInt_ofNat hwidth
  have hh := toInt_ofNat hheight
  constructor
  · rintro ⟨flat, hheard, b, hcovers, hiff, hsame⟩
    rw [Ironrdp.heard_eq hlen] at hheard
    split at hheard
    · next hfits =>
      cases hheard
      have hx := fun m hm => (hfits m hm).1
      have hy := fun m hm => (hfits m hm).2
      -- No monitors cover nothing, for the one and for the other.
      by_cases hne : monitors = []
      · subst hne
        exact ⟨⟨nofun, nofun⟩, fun _ _ => nofun⟩
      rw [Ironrdp.covers_eq hne hx hy] at hcovers
      split at hcovers
      · next hends =>
        refine ⟨⟨narrow_iff.2 ⟨hx, hends.1⟩, narrow_iff.2 ⟨hy, hends.2⟩⟩, fun hspans hspans' m hm => ?_⟩
        have htrue : b = true := by
          rw [← Option.some_inj.1 hcovers]
          exact decide_eq_true ⟨hspans, hspans'⟩
        have hflatten := (hsame htrue).1
        rw [flattenLayout_eq] at hflatten
        split at hflatten
        · next hdesktop =>
          obtain ⟨⟨hwide, -⟩, htall, -⟩ := hdesktop m hm
          exact ⟨Int32.le_iff_toInt_le.2 (by omega), Int32.le_iff_toInt_le.2 (by omega)⟩
        · cases hflatten
      · cases hcovers
    · cases hheard
  · rintro ⟨⟨hacross, hdown⟩, hproper⟩
    obtain ⟨hx, hends⟩ := narrow_iff.1 hacross
    obtain ⟨hy, hends'⟩ := narrow_iff.1 hdown
    refine ⟨monitors.map (Monitor.rect monitors), ?_, ?_⟩
    · rw [Ironrdp.heard_eq hlen, if_pos fun m hm => ⟨hx m hm, hy m hm⟩]
    by_cases hne : monitors = []
    · subst hne
      refine ⟨false, rfl, ⟨nofun, ?_⟩, nofun⟩
      rintro ⟨flat', hflatten, hcovers⟩
      cases hflatten
      cases hcovers
    -- Where the size is that of the bounding box, none of the monitors is refused in 64 bits.
    have hdesktop : Spans Monitor.left Monitor.right monitors width → Spans Monitor.top Monitor.bottom monitors height →
        ∀ m ∈ monitors, (InDesktop Monitor.left Monitor.right monitors m ∧ m.right.toInt - start Monitor.left monitors + 1 ≤ width) ∧
          InDesktop Monitor.top Monitor.bottom monitors m ∧ m.bottom.toInt - start Monitor.top monitors + 1 ≤ height := by
      intro hspans hspans' m hm
      obtain ⟨hwide, htall⟩ := hproper hspans hspans' m hm
      exact ⟨hspans.inDesktop hwidth hm hwide, hspans'.inDesktop hheight hm htall⟩
    refine ⟨_, by rw [Ironrdp.covers_eq hne hx hy, if_pos ⟨hends, hends'⟩], ?_, ?_⟩
    · rw [decide_eq_true_eq]
      constructor
      · rintro ⟨hspans, hspans'⟩
        have hall := hdesktop hspans hspans'
        refine ⟨monitors.map (Monitor.rect monitors), ?_, ?_⟩
        · rw [flattenLayout_eq, if_pos fun m hm => ⟨(hall m hm).1.1, (hall m hm).2.1⟩]
        · rw [covers_iff hne (fun m hm => (hall m hm).1.1) (fun m hm => (hall m hm).2.1), hw, hh]
          exact ⟨hspans, hspans'⟩
      · rintro ⟨flat', hflatten, hcovers⟩
        rw [flattenLayout_eq] at hflatten
        split at hflatten
        · next hdesktop =>
          cases hflatten
          rwa [covers_iff hne (fun m hm => (hdesktop m hm).1) (fun m hm => (hdesktop m hm).2), hw, hh] at hcovers
        · cases hflatten
    · rw [decide_eq_true_eq]
      rintro ⟨hspans, hspans'⟩
      have hall := hdesktop hspans hspans'
      refine ⟨by rw [flattenLayout_eq, if_pos fun m hm => ⟨(hall m hm).1.1, (hall m hm).2.1⟩], ?_⟩
      rw [List.forall_mem_map]
      intro m hm
      obtain ⟨⟨hleft, hright⟩, htop, hbottom⟩ := hall m hm
      obtain ⟨hx0, hw0, hxw⟩ := hleft.placed hm hright
      obtain ⟨hy0, hh0, hyh⟩ := htop.placed hm hbottom
      exact ⟨hx0, hw0, hxw, hy0, hh0, hyh⟩

/-- Both clients read the monitors alike, of a desktop of any size, exactly if 32 bits tell what is computed of them, and
each is at least a pixel each way unless their bounding box is not a desktop. -/
theorem monitors_alike {monitors : List Monitor} (hlen : monitors.length ≤ 16) :
    (∀ width height, width ≤ 32766 → height ≤ 32766 → Alike monitors width height) ↔
      (Narrow Monitor.left Monitor.right monitors ∧ Narrow Monitor.top Monitor.bottom monitors) ∧
        ∀ width height : Nat, width ≤ 32766 → height ≤ 32766 →
          Spans Monitor.left Monitor.right monitors width → Spans Monitor.top Monitor.bottom monitors height →
            ∀ m ∈ monitors, m.left ≤ m.right ∧ m.top ≤ m.bottom := by
  constructor
  · intro h
    refine ⟨((alike_iff hlen (Nat.zero_le _) (Nat.zero_le _)).1 (h 0 0 (Nat.zero_le _) (Nat.zero_le _))).1, ?_⟩
    intro width height hwidth hheight
    exact ((alike_iff hlen hwidth hheight).1 (h width height hwidth hheight)).2
  · rintro ⟨hnarrow, hall⟩ width height hwidth hheight
    exact (alike_iff hlen hwidth hheight).2 ⟨hnarrow, hall width height hwidth hheight⟩

/-- Two monitors, the second above the first and to its left. -/
def pair : List Monitor := [⟨0, 0, 1919, 1079⟩, ⟨-1280, -200, -1, 823⟩]

theorem monitors_alike_pair :
    Ironrdp.heard pair = some [⟨1280, 200, 1920, 1080⟩, ⟨0, 0, 1280, 1024⟩] ∧ Alike pair 3200 1280 := by
  refine ⟨by decide, (monitors_alike (by decide)).2 ⟨by decide, ?_⟩ 3200 1280 (by decide) (by decide)⟩
  intro width height _ _ _ _
  decide

/-- A monitor from one end of 32 bits to the other overflows; and one of no width, beside one that is a desktop, is refused by the
one client and taken by the other. -/
theorem monitors_differ :
    Ironrdp.heard [⟨-2147483648, 0, 2147483647, 0⟩] = none ∧
    (∃ flat, Ironrdp.heard [⟨0, 0, 99, 99⟩, ⟨50, 50, 40, 99⟩] = some flat ∧ Ironrdp.covers flat 100 100 = some true ∧
      flattenLayout [⟨0, 0, 99, 99⟩, ⟨50, 50, 40, 99⟩] = none) ∧
    ¬∀ monitors : List Monitor, monitors.length ≤ 16 → ∀ width height, width ≤ 32766 → height ≤ 32766 →
      Alike monitors width height := by
  refine ⟨by decide, ⟨_, rfl, by decide, by decide⟩, fun h => ?_⟩
  obtain ⟨flat, hheard, -⟩ := h [⟨-2147483648, 0, 2147483647, 0⟩] (by decide) 0 0 (by decide) (by decide)
  cases hheard

end Vento.Freerdp
