import Mathlib.Algebra.Ring.Int.Defs
import Mathlib.Data.List.Chain
import Vento.Lib.Java
/-!
# Following the windows

`linux/src/gui/follow.rs`: the far end is asked for a desktop the shape of the windows, once
they have stopped moving and where it takes one. An instant is a `Nat` of milliseconds.

Sums of widths are `i32`s, so a plan of many wide windows can wrap: `tick_layout_iff` is
when the screens that are asked for stand side by side.
-/

namespace Vento.Linux

open Vento.Lib Java

/-- `backend::Monitor`. -/
structure Monitor where
  id : UInt32
  x : Int32
  y : Int32
  width : Int32
  height : Int32
deriving DecidableEq, Repr

/-- A window: the far end's monitor it shows, and its size. -/
structure Shown where
  monitor : Option UInt32
  size : UInt32 × UInt32
deriving DecidableEq, Repr

/-- What the far end takes now. -/
structure Takes where
  size : Bool
  layout : Bool
deriving DecidableEq, Repr

inductive Ask where
  | size (w h : UInt32)
  | layout (width height : UInt32) (screens : List Monitor)
deriving DecidableEq, Repr

structure Follower where
  enabled : Bool
  followed : Option Ask
  settled : Option (List Shown)
  due : Option Nat
deriving DecidableEq, Repr

def minSize : UInt32 := 200
def maxSize : UInt32 := 16384

def debounce : Nat := 600

/-! ## The plan -/

/-- The size of the first window that shows a monitor. -/
def sizeOfMonitor (windows : List Shown) (id : UInt32) : Option (UInt32 × UInt32) :=
  (windows.find? fun w => w.monitor = some id).map Shown.size

/-- The size a monitor is asked for. -/
def askedSize (windows : List Shown) (m : Monitor) : Int32 × Int32 :=
  match sizeOfMonitor windows m.id with
  | some (w, h) => (w.toInt32, h.toInt32)
  | none => (m.width, m.height)

/-- The screens from `x` on, and where they end and the tallest. -/
def layOut (windows : List Shown) : Int32 → Int32 → List Monitor → List Monitor × Int32 × Int32
  | x, height, [] => ([], x, height)
  | x, height, m :: monitors =>
    let (w, h) := askedSize windows m
    let rest := layOut windows (x + w) (maxInt height h) monitors
    ({ id := m.id, x, y := 0, width := w, height := h } :: rest.1, rest.2)

def plan (windows : List Shown) (monitors : List Monitor) (takes : Takes) : Option Ask :=
  if takes.layout ∧ monitors.any fun m => (sizeOfMonitor windows m.id).isSome then
    let (screens, x, height) := layOut windows 0 0 monitors
    some (.layout x.toUInt32 height.toUInt32 screens)
  else
    windows.head?.bind fun main =>
      if takes.size ∧ monitors.length ≤ 1 then some (.size main.size.1 main.size.2) else none

/-! ## The follower -/

def sane (size : UInt32 × UInt32) : Bool :=
  minSize ≤ size.1 && size.1 ≤ maxSize && minSize ≤ size.2 && size.2 ≤ maxSize

namespace Follower

/-- `Follower::default`. -/
def start : Follower := ⟨false, none, none, none⟩

def setEnabled (f : Follower) (enabled : Bool) : Follower :=
  { f with enabled, followed := if enabled then none else f.followed }

def resized (f : Follower) (now : Nat) : Follower := if f.enabled then { f with due := some (now + debounce) } else f

def tick (f : Follower) (windows : List Shown) (monitors : List Monitor) (takes : Takes) : Option Ask × Follower :=
  let f := { f with due := none }
  if !f.enabled || windows.isEmpty then (none, f)
  else if !windows.all fun w => sane w.size then (none, f)
  else
    let settled := f.settled = some windows
    let f := { f with settled := some windows }
    if ¬settled then (none, f)
    else
      match plan windows monitors takes with
      | none => (none, f)
      | some ask => if f.followed = some ask then (none, f) else (some ask, { f with followed := some ask })

end Follower

inductive Act where
  | setEnabled (enabled : Bool)
  | resized (now : Nat)
  | tick (windows : List Shown) (monitors : List Monitor) (takes : Takes)

/-- What is heard of an act: that following was turned on, or a question. -/
inductive Heard where
  | turnedOn
  | asked (ask : Ask)
deriving DecidableEq, Repr

namespace Follower

def step (f : Follower) : Act → List Heard × Follower
  | .setEnabled enabled => (if enabled then [.turnedOn] else [], f.setEnabled enabled)
  | .resized now => ([], f.resized now)
  | .tick windows monitors takes =>
    ((f.tick windows monitors takes).1.toList.map .asked, (f.tick windows monitors takes).2)

/-- All that is heard of a run, in order. -/
def heard : Follower → List Act → List Heard
  | _, [] => []
  | f, a :: acts => (f.step a).1 ++ (f.step a).2.heard acts

def after (f : Follower) (acts : List Act) : Follower := acts.foldl (fun f a => (f.step a).2) f

/-! ## What a tick does -/

/-- A question is the plan of windows that have settled, and a new one; nothing else is changed by asking nothing. -/
theorem tick_cases (f : Follower) (windows : List Shown) (monitors : List Monitor) (takes : Takes) :
    ((f.tick windows monitors takes).1 = none ∧ (f.tick windows monitors takes).2.followed = f.followed ∧
        (f.tick windows monitors takes).2.enabled = f.enabled) ∨
      ∃ ask, f.tick windows monitors takes = (some ask, { f with followed := some ask, due := none }) ∧
        plan windows monitors takes = some ask ∧ f.followed ≠ some ask ∧ (windows.all fun w => sane w.size) = true := by
  unfold tick
  simp only
  split
  · exact .inl ⟨rfl, rfl, rfl⟩
  · split
    · exact .inl ⟨rfl, rfl, rfl⟩
    · rename_i hsane
      split
      · exact .inl ⟨rfl, rfl, rfl⟩
      · rename_i hsettled
        cases hplan : plan windows monitors takes with
        | none => exact .inl ⟨rfl, rfl, rfl⟩
        | some ask =>
          simp only
          split
          · exact .inl ⟨rfl, rfl, rfl⟩
          · rename_i hnew
            refine .inr ⟨ask, ?_, rfl, hnew, ?_⟩
            · rw [← not_not.1 hsettled]
            · simpa using hsane

/-- Two questions in a row differ. -/
def Differs (a b : Heard) : Prop := ∀ ask, a = .asked ask → b ≠ .asked ask

theorem heard_fresh (f : Follower) (acts : List Act) :
    (f.heard acts).IsChain Differs ∧ ∀ ask, (f.heard acts).head? = some (.asked ask) → f.followed ≠ some ask := by
  induction acts generalizing f with
  | nil => exact ⟨List.IsChain.nil, nofun⟩
  | cons a acts ih =>
    obtain ⟨hchain, hhead⟩ := ih (f.step a).2
    cases a with
    | setEnabled enabled =>
      cases enabled with
      | false => exact ⟨hchain, hhead⟩
      | true => exact ⟨List.isChain_cons.2 ⟨fun _ _ => nofun, hchain⟩, nofun⟩
    | resized now =>
      refine ⟨hchain, fun ask h => ?_⟩
      have hsame : (f.resized now).followed = f.followed := by
        unfold resized
        split <;> rfl
      rw [← hsame]
      exact hhead ask h
    | tick windows monitors takes =>
      rw [heard]
      rcases f.tick_cases windows monitors takes with ⟨hnone, hsame, -⟩ | ⟨ask, htick, -, hnew, -⟩
      · have hquiet : (f.step (.tick windows monitors takes)).1 = [] := by
          rw [step, hnone]
          rfl
        rw [hquiet, List.nil_append]
        refine ⟨hchain, fun ask h => ?_⟩
        rw [← hsame]
        exact hhead ask h
      · have hasked : f.step (.tick windows monitors takes) =
            ([.asked ask], { f with followed := some ask, due := none }) := by
          rw [step, htick]
          rfl
        rw [hasked] at hchain hhead ⊢
        refine ⟨List.isChain_cons.2 ⟨?_, hchain⟩, fun ask' h => ?_⟩
        · rintro b hb _ ⟨⟩ rfl
          exact hhead ask hb rfl
        · cases h
          exact hnew

end Follower

/-! ## Side by side -/

/-- The screens stand side by side from `x` on. -/
def Abuts : Int → List Monitor → Prop
  | _, [] => True
  | x, m :: screens => m.x.toInt = x ∧ m.y = 0 ∧ Abuts (x + m.width.toInt) screens

/-- A layout of the far end's monitors, in their order. -/
structure LaidOut (monitors : List Monitor) (width height : UInt32) (screens : List Monitor) : Prop where
  ids : screens.map Monitor.id = monitors.map Monitor.id
  abuts : Abuts 0 screens
  width : (width.toNat : Int) = (screens.map fun m => m.width.toInt).sum
  height : (height.toNat : Int) = (screens.map fun m => m.height.toInt).foldl max 0

def askedWidth (windows : List Shown) (m : Monitor) : Int := (askedSize windows m).1.toInt

def askedHeight (windows : List Shown) (m : Monitor) : Int := (askedSize windows m).2.toInt

variable {windows : List Shown}

theorem layOut_cons (x height : Int32) (m : Monitor) (monitors : List Monitor) :
    layOut windows x height (m :: monitors) =
      (⟨m.id, x, 0, (askedSize windows m).1, (askedSize windows m).2⟩ ::
          (layOut windows (x + (askedSize windows m).1) (maxInt height (askedSize windows m).2) monitors).1,
        (layOut windows (x + (askedSize windows m).1) (maxInt height (askedSize windows m).2) monitors).2) := rfl

theorem layOut_ids (x height : Int32) (monitors : List Monitor) :
    (layOut windows x height monitors).1.map Monitor.id = monitors.map Monitor.id := by
  induction monitors generalizing x height with
  | nil => rfl
  | cons m monitors ih => rw [layOut_cons, List.map_cons, List.map_cons, ih]

theorem layOut_widths (x height : Int32) (monitors : List Monitor) :
    ((layOut windows x height monitors).1.map fun m => m.width.toInt) = monitors.map (askedWidth windows) := by
  induction monitors generalizing x height with
  | nil => rw [layOut, List.map_nil, List.map_nil]
  | cons m monitors ih => simp only [layOut_cons, List.map_cons, ih, askedWidth]

theorem layOut_heights (x height : Int32) (monitors : List Monitor) :
    ((layOut windows x height monitors).1.map fun m => m.height.toInt) = monitors.map (askedHeight windows) := by
  induction monitors generalizing x height with
  | nil => rw [layOut, List.map_nil, List.map_nil]
  | cons m monitors ih => simp only [layOut_cons, List.map_cons, ih, askedHeight]

theorem layOut_tallest (x height : Int32) (monitors : List Monitor) :
    (layOut windows x height monitors).2.2.toInt = (monitors.map (askedHeight windows)).foldl max height.toInt := by
  induction monitors generalizing x height with
  | nil => rfl
  | cons m monitors ih =>
    rw [layOut_cons, List.map_cons, List.foldl_cons]
    refine (ih _ _).trans ?_
    rw [toInt_maxInt]
    rfl

theorem sum_nonneg {ns : List Int} (h : ∀ n ∈ ns, 0 ≤ n) : 0 ≤ ns.sum := by
  induction ns with
  | nil => exact Int.le_refl 0
  | cons n ns ih =>
    rw [List.sum_cons]
    have := h n List.mem_cons_self
    have := ih fun m hm => h m (List.mem_cons_of_mem _ hm)
    omega

/-- What stands before the last screen. -/
theorem sum_dropLast_nonneg {monitors : List Monitor} (hw : ∀ m ∈ monitors, 0 ≤ askedWidth windows m) :
    0 ≤ (monitors.dropLast.map (askedWidth windows)).sum := by
  apply sum_nonneg
  intro n hn
  obtain ⟨m, hm, rfl⟩ := List.mem_map.1 hn
  exact hw m (List.dropLast_subset _ hm)

/-- The screens stand side by side as long as all but the last come to less than an `i32`'s limit. -/
theorem layOut_abuts_iff {monitors : List Monitor} (hw : ∀ m ∈ monitors, 0 ≤ askedWidth windows m) (x height : Int32)
    (hx : 0 ≤ x.toInt) :
    Abuts x.toInt (layOut windows x height monitors).1 ↔
      x.toInt + (monitors.dropLast.map (askedWidth windows)).sum < 2 ^ 31 := by
  induction monitors generalizing x height with
  | nil => exact iff_of_true trivial (by rw [List.dropLast_nil, List.map_nil, List.sum_nil]; have := x.toInt_lt; omega)
  | cons m monitors ih =>
    have hm := hw m List.mem_cons_self
    have hlt := x.toInt_lt
    have hmlt : askedWidth windows m < 2 ^ 31 := Int32.toInt_lt _
    rw [layOut_cons]
    cases monitors with
    | nil =>
      rw [show [m].dropLast = [] from rfl, List.map_nil, List.sum_nil]
      exact iff_of_true ⟨rfl, rfl, trivial⟩ (by omega)
    | cons m' monitors =>
      have hrest := sum_dropLast_nonneg fun k hk => hw k (List.mem_cons_of_mem _ hk)
      rw [List.dropLast_cons_cons, List.map_cons, List.sum_cons]
      by_cases hover : x.toInt + askedWidth windows m < 2 ^ 31
      · have hadd : (x + (askedSize windows m).1).toInt = x.toInt + askedWidth windows m :=
          toInt_add (by unfold askedWidth at *; omega) hover
        have hrec := ih (fun k hk => hw k (List.mem_cons_of_mem _ hk)) (x + (askedSize windows m).1)
          (maxInt height (askedSize windows m).2) (by omega)
        rw [hadd, Int.add_assoc] at hrec
        rw [← hrec]
        exact ⟨fun h => h.2.2, fun h => ⟨rfl, rfl, h⟩⟩
      · refine iff_of_false ?_ (by omega)
        rintro ⟨-, -, hnext⟩
        rw [layOut_cons] at hnext
        have hx' : (x + (askedSize windows m).1).toInt = x.toInt + askedWidth windows m := hnext.1
        have := (x + (askedSize windows m).1).toInt_lt
        omega

theorem toNat_toUInt32 {x : Int32} (hx : 0 ≤ x.toInt) : (x.toUInt32.toNat : Int) = x.toInt := by
  have hle : 0 ≤ x := Int32.le_iff_toInt_le.2 hx
  rw [Int32.toNat_toUInt32_of_le hle, Int32.toInt_eq_toNatClampNeg hle]

/-- Where the screens end, as the `u32` that the last sum is cast to. -/
theorem layOut_end {monitors : List Monitor} (hw : ∀ m ∈ monitors, 0 ≤ askedWidth windows m) (x height : Int32)
    (hx : 0 ≤ x.toInt) (hfit : x.toInt + (monitors.dropLast.map (askedWidth windows)).sum < 2 ^ 31) :
    ((layOut windows x height monitors).2.1.toUInt32.toNat : Int) =
      x.toInt + (monitors.map (askedWidth windows)).sum := by
  induction monitors generalizing x height with
  | nil =>
    rw [List.map_nil, List.sum_nil, Int.add_zero]
    exact toNat_toUInt32 hx
  | cons m monitors ih =>
    have hm := hw m List.mem_cons_self
    rw [layOut_cons, List.map_cons, List.sum_cons]
    cases monitors with
    | nil =>
      have hxn := toNat_toUInt32 hx
      have hwn : ((askedSize windows m).1.toUInt32.toNat : Int) = askedWidth windows m := toNat_toUInt32 hm
      have hlt := x.toInt_lt
      have hmlt : askedWidth windows m < 2 ^ 31 := Int32.toInt_lt _
      show ((x + (askedSize windows m).1).toUInt32.toNat : Int) = x.toInt + (askedWidth windows m + 0)
      rw [Int32.toUInt32_add, UInt32.toNat_add]
      omega
    | cons m' monitors =>
      have hrest := sum_dropLast_nonneg fun k hk => hw k (List.mem_cons_of_mem _ hk)
      rw [List.dropLast_cons_cons, List.map_cons, List.sum_cons] at hfit
      have hadd : (x + (askedSize windows m).1).toInt = x.toInt + askedWidth windows m :=
        toInt_add (by unfold askedWidth at *; omega) (by unfold askedWidth at *; omega)
      have hrec := ih (fun k hk => hw k (List.mem_cons_of_mem _ hk)) (x + (askedSize windows m).1)
        (maxInt height (askedSize windows m).2) (by omega) (by omega)
      rw [hrec, hadd, Int.add_assoc]

/-! ## Granted -/

/-- A screen that was asked for is asked for as it is. -/
theorem askedSize_granted (m : Monitor) (x : Int32) :
    askedSize windows ⟨m.id, x, 0, (askedSize windows m).1, (askedSize windows m).2⟩ = askedSize windows m := by
  unfold askedSize
  cases sizeOfMonitor windows m.id <;> rfl

theorem layOut_granted (x height : Int32) (monitors : List Monitor) :
    layOut windows x height (layOut windows x height monitors).1 = layOut windows x height monitors := by
  induction monitors generalizing x height with
  | nil => rfl
  | cons m monitors ih => simp only [layOut_cons, askedSize_granted, ih]

theorem any_shown_granted (x height : Int32) (monitors : List Monitor) :
    ((layOut windows x height monitors).1.any fun m => (sizeOfMonitor windows m.id).isSome) =
      monitors.any fun m => (sizeOfMonitor windows m.id).isSome := by
  induction monitors generalizing x height with
  | nil => rfl
  | cons m monitors ih => simp only [layOut_cons, List.any_cons, ih]

/-- What a plan of a layout is. -/
theorem plan_layout {monitors screens : List Monitor} {takes : Takes} {width height : UInt32}
    (h : plan windows monitors takes = some (.layout width height screens)) :
    (takes.layout ∧ monitors.any fun m => (sizeOfMonitor windows m.id).isSome) ∧
      screens = (layOut windows 0 0 monitors).1 ∧ width = (layOut windows 0 0 monitors).2.1.toUInt32 ∧
      height = (layOut windows 0 0 monitors).2.2.toUInt32 := by
  unfold plan at h
  split at h
  · rename_i hcond
    cases h
    exact ⟨hcond, rfl, rfl, rfl⟩
  · obtain ⟨main, -, hmain⟩ := Option.bind_eq_some_iff.1 h
    split at hmain <;> cases hmain

/-- The plan for what was granted is the same plan. -/
theorem plan_granted {monitors screens : List Monitor} {takes : Takes} {width height : UInt32}
    (h : plan windows monitors takes = some (.layout width height screens)) :
    plan windows screens takes = some (.layout width height screens) := by
  obtain ⟨⟨htakes, hany⟩, rfl, rfl, rfl⟩ := plan_layout h
  rw [plan, if_pos ⟨htakes, (any_shown_granted 0 0 monitors).trans hany⟩, layOut_granted]

namespace Follower

/-- What may happen while the far end has the screens that were asked for: the same ticks, and nothing turned on. -/
def Still (windows : List Shown) (screens : List Monitor) (takes : Takes) : Act → Prop
  | .setEnabled enabled => enabled = false
  | .resized _ => True
  | .tick windows' monitors' takes' => windows' = windows ∧ monitors' = screens ∧ takes' = takes

theorem heard_still {screens : List Monitor} {takes : Takes} {ask : Ask} (hplan : plan windows screens takes = some ask)
    (f : Follower) (hf : f.followed = some ask) (acts : List Act) (hacts : ∀ a ∈ acts, Still windows screens takes a) :
    f.heard acts = [] := by
  induction acts generalizing f with
  | nil => rfl
  | cons a acts ih =>
    have hstill := hacts a List.mem_cons_self
    have hrest := fun a' ha' => hacts a' (List.mem_cons_of_mem _ ha')
    cases a with
    | setEnabled enabled =>
      cases hstill
      exact ih _ hf hrest
    | resized now =>
      refine ih (f.resized now) ?_ hrest
      unfold resized
      split <;> exact hf
    | tick windows' monitors' takes' =>
      obtain ⟨rfl, rfl, rfl⟩ := hstill
      rcases f.tick_cases windows' monitors' takes' with ⟨hnone, hsame, -⟩ | ⟨ask', -, hplan', hnew, -⟩
      · rw [heard, step, hnone]
        exact ih _ (hsame.trans hf) hrest
      · rw [hplan] at hplan'
        cases hplan'
        exact absurd hf hnew

end Follower

/-- A sane size is not changed by the cast. -/
theorem toInt_sane {n : UInt32} (h : n ≤ maxSize) : 0 ≤ n.toInt32.toInt := by
  have hn : n.toNat ≤ 16384 := UInt32.le_iff_toNat_le.1 h
  show 0 ≤ n.toBitVec.toInt
  rw [BitVec.toInt_eq_toNat_of_lt (show 2 * n.toNat < 2 ^ 32 by omega)]
  exact Int.natCast_nonneg _

theorem askedSize_nonneg (hsane : (windows.all fun w => sane w.size) = true) {m : Monitor}
    (hm : 0 < m.width ∧ 0 < m.height) : 0 ≤ askedWidth windows m ∧ 0 ≤ askedHeight windows m := by
  unfold askedWidth askedHeight askedSize
  cases hsize : sizeOfMonitor windows m.id with
  | none => exact ⟨Int.le_of_lt (Int32.lt_iff_toInt_lt.1 hm.1), Int.le_of_lt (Int32.lt_iff_toInt_lt.1 hm.2)⟩
  | some size =>
    obtain ⟨w, hfind, rfl⟩ := Option.map_eq_some_iff.1 hsize
    have hw := List.all_eq_true.1 hsane w (List.mem_of_find?_eq_some hfind)
    simp only [sane, Bool.and_eq_true, decide_eq_true_eq] at hw
    exact ⟨toInt_sane hw.1.1.2, toInt_sane hw.2⟩

theorem le_foldl_max (ns : List Int) (n : Int) : n ≤ ns.foldl max n := by
  induction ns generalizing n with
  | nil => exact Int.le_refl n
  | cons k ns ih => exact Int.le_trans (Int.le_max_left n k) (ih (max n k))

/-- A layout is laid out where all but its last screen come to less than an `i32`'s limit, and only there. -/
theorem plan_laidOut_iff {monitors screens : List Monitor} {takes : Takes} {width height : UInt32}
    (h : plan windows monitors takes = some (.layout width height screens))
    (hsane : (windows.all fun w => sane w.size) = true) (hpos : ∀ m ∈ monitors, 0 < m.width ∧ 0 < m.height) :
    LaidOut monitors width height screens ↔ (monitors.dropLast.map (askedWidth windows)).sum < 2 ^ 31 := by
  obtain ⟨-, rfl, rfl, rfl⟩ := plan_layout h
  have hw : ∀ m ∈ monitors, 0 ≤ askedWidth windows m := fun m hm => (askedSize_nonneg hsane (hpos m hm)).1
  have hzero : (0 : Int32).toInt = 0 := Int32.toInt_zero
  have habuts := layOut_abuts_iff hw 0 0 (by rw [hzero])
  rw [hzero, Int.zero_add] at habuts
  refine ⟨fun hl => habuts.1 hl.abuts, fun hfit => ?_⟩
  refine { ids := layOut_ids 0 0 monitors, abuts := habuts.2 hfit, width := ?_, height := ?_ }
  · rw [layOut_end hw 0 0 (by rw [hzero]) (by rw [hzero]; omega), layOut_widths, hzero, Int.zero_add]
  · have htall : (layOut windows 0 0 monitors).2.2.toInt = _ := layOut_tallest 0 0 monitors
    rw [hzero] at htall
    have hnonneg := le_foldl_max (monitors.map (askedHeight windows)) 0
    rw [toNat_toUInt32 (by rw [htall]; exact hnonneg), htall, layOut_heights]

/-- Of every run of the follower: no two questions in a row are the same unless following was turned on between them; a
layout asked for stands side by side if and only if all but its last screen come to less than an `i32`'s limit; and once
the far end has it and nothing else changes, nothing more is asked. -/
theorem follows (acts : List Act) :
    (Follower.start.heard acts).IsChain Follower.Differs ∧
      ∀ windows monitors takes width height screens f',
        (Follower.start.after acts).tick windows monitors takes = (some (.layout width height screens), f') →
        (∀ m ∈ monitors, 0 < m.width ∧ 0 < m.height) →
        (LaidOut monitors width height screens ↔ (monitors.dropLast.map (askedWidth windows)).sum < 2 ^ 31) ∧
          ∀ later, (∀ a ∈ later, Follower.Still windows screens takes a) → f'.heard later = [] := by
  refine ⟨(Follower.start.heard_fresh acts).1, fun windows monitors takes width height screens f' htick hpos => ?_⟩
  rcases (Follower.start.after acts).tick_cases windows monitors takes with ⟨hnone, -⟩ | ⟨ask, hask, hplan, -, hsane⟩
  · rw [htick] at hnone
    cases hnone
  · rw [htick] at hask
    cases hask
    exact ⟨plan_laidOut_iff hplan hsane hpos, fun later hlater =>
      Follower.heard_still (plan_granted hplan) _ rfl later hlater⟩

/-- Two monitors, one in a window. -/
def pair : List Monitor := [⟨1, 0, 0, 1280, 800⟩, ⟨2, 1280, 0, 1280, 800⟩]

theorem follows_pair :
    LaidOut pair 2880 900 [⟨1, 0, 0, 1600, 900⟩, ⟨2, 1600, 0, 1280, 800⟩] := by
  have htick := (follows [.setEnabled true, .tick [⟨some 1, (1600, 900)⟩] pair ⟨false, true⟩]).2
    [⟨some 1, (1600, 900)⟩] pair ⟨false, true⟩ 2880 900 [⟨1, 0, 0, 1600, 900⟩, ⟨2, 1600, 0, 1280, 800⟩] _ rfl
  have hpos : ∀ m ∈ pair, 0 < m.width ∧ 0 < m.height := by
    intro m hm
    simp only [pair, List.mem_cons, List.not_mem_nil, or_false] at hm
    rcases hm with rfl | rfl <;> decide
  exact (htick hpos).1.2 (by decide)

/-- A monitor almost as wide as an `i32` allows, and two narrow ones. -/
def wide : List Monitor := [⟨1, 0, 0, 2147482647, 800⟩, ⟨2, 0, 0, 300, 800⟩, ⟨3, 0, 0, 300, 800⟩]

def wideScreens : List Monitor :=
  [⟨1, 0, 0, 2147482647, 800⟩, ⟨2, 2147482647, 0, 1600, 900⟩, ⟨3, -2147483049, 0, 300, 800⟩]

/-- A window wider than its monitor, of a far end whose widths come to less than an `i32`'s limit. -/
theorem wide_wraps :
    (wide.map fun m => m.width.toInt).sum < 2 ^ 31 ∧
      ((Follower.start.after [.setEnabled true, .tick [⟨some 2, (1600, 900)⟩] wide ⟨false, true⟩]).tick
        [⟨some 2, (1600, 900)⟩] wide ⟨false, true⟩).1 = some (.layout 2147484547 900 wideScreens) ∧
      ¬LaidOut wide 2147484547 900 wideScreens := by
  refine ⟨by decide, by decide, fun h => ?_⟩
  have hx : (-2147483049 : Int32).toInt = 0 + (2147482647 : Int32).toInt + (1600 : Int32).toInt := h.abuts.2.2.2.2.1
  exact absurd hx (by decide)

end Vento.Linux
