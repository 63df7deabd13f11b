import Mathlib.Algebra.Group.Prod
import Mathlib.Algebra.BigOperators.Group.List.Basic
import Vento.Control.CursorController
import Vento.Control.Viewport
/-!
# Motion that is owed

`control/CursorController.java` where the far end owns the cursor: the motion of the
finger, over the scale, is owed until it is whole, and each event takes the whole part and
leaves the fraction. `Motion` is the controller of `CursorController` with what is owed and
the deltas sent, over a `Viewport`; `run_cursor` is that it is that controller.
-/

namespace Vento.Control

open Vento.Lib Java

namespace CursorController

/-- The arithmetic of a `Viewport`. -/
def desk : Desk (ℚ × ℚ) Viewport (ℚ × ℚ) where
  travel v p d :=
    (clamp (p.1 + d.1 / v.scale) 0 (float (v.fbW - 1)), clamp (p.2 + d.2 / v.scale) 0 (float (v.fbH - 1)))
  centreOn v p := v.centreOn p.1 p.2 v.scale
  same p q := p.1 == q.1 && p.2 == q.2

/-- How far an act moves the pointer on the desktop. -/
def Act.travel (scale : ℚ) : Act Viewport (ℚ × ℚ) → ℚ × ℚ
  | .mouseMove d => (d.1 / scale, d.2 / scale)
  | _ => (0, 0)

structure Motion where
  cursor : State (ℚ × ℚ) Viewport
  owedX : ℚ
  owedY : ℚ
  /-- Of the relative events. -/
  deltas : List (Int32 × Int32)

namespace Motion

def init (view : Viewport) (origin : ℚ × ℚ) : Motion := ⟨CursorController.init view origin, 0, 0, []⟩

def setRelative (m : Motion) (relative : Bool) : Motion :=
  if m.cursor.relative = relative then m
  else { m with cursor := m.cursor.setRelative relative, owedX := 0, owedY := 0 }

/-- Send what is owed, keep the fraction. -/
def emitRelative (m : Motion) : Motion :=
  let dx := castInt m.owedX
  let dy := castInt m.owedY
  if dx = 0 ∧ dy = 0 ∧ m.cursor.everSent = true ∧ m.cursor.buttons = m.cursor.sentButtons then m
  else
    { cursor := { m.cursor with
        everSent := true
        sentButtons := m.cursor.buttons
        events := m.cursor.events ++ [.pointerEventRelative m.cursor.buttons] }
      owedX := m.owedX - float dx
      owedY := m.owedY - float dy
      deltas := m.deltas ++ [(dx, dy)] }

variable (cfg : Config)

/-- An absolute event is sent as `State.emit` does. -/
def emit (m : Motion) : Motion :=
  if m.cursor.relative then m.emitRelative else { m with cursor := m.cursor.emit desk cfg false }

def post (m : Motion) : Motion :=
  if !cfg.coalescePointerEvents then m.emit cfg else { m with cursor := { m.cursor with framePending := true } }

def flush (m : Motion) : Motion := { m with cursor := { m.cursor with framePending := false } }.emit cfg

def frame (m : Motion) : Motion := if m.cursor.framePending then m.flush cfg else m

def mouseMove (m : Motion) (d : ℚ × ℚ) : Motion :=
  let s := m.cursor.view.scale
  if m.cursor.relative then { m with owedX := m.owedX + d.1 / s, owedY := m.owedY + d.2 / s }.post cfg
  else { m with cursor := m.cursor.mouseMove desk cfg false d }

/-- A source's mask changes. -/
def setMask (m : Motion) (source : Nat) (f : UInt32 → UInt32) : Motion :=
  let pressed := { m with cursor := { m.cursor with sources := m.cursor.sources.modify source f }.union }
  let sent := pressed.flush cfg
  { sent with cursor := sent.cursor.clickEdge }

def step (m : Motion) (i : Config × Act Viewport (ℚ × ℚ)) : Option Motion :=
  match i.2 with
  | .newButtonSource => some { m with cursor := m.cursor.newButtonSource }
  | .mouseDown source mask =>
    if source < m.cursor.sources.length then some (m.setMask i.1 source (· ||| mask)) else none
  | .mouseUp source mask =>
    if source < m.cursor.sources.length then some (m.setMask i.1 source (· &&& ~~~mask)) else none
  | .mouseMove d => some (m.mouseMove i.1 d)
  | .frame => some (m.frame i.1)
  | .setView view => some { m with cursor := { m.cursor with view } }
  | .setRelative relative => some (m.setRelative relative)

/-! ## It is the controller -/

/-- Whether whole motion is owed. -/
def owes (m : Motion) : Bool := !(castInt m.owedX = 0 ∧ castInt m.owedY = 0 : Bool)

theorem emit_cursor (m : Motion) : (m.emit cfg).cursor = m.cursor.emit desk cfg m.owes := by
  unfold emit State.emit
  split
  · unfold emitRelative State.emitRelative owes
    simp only
    by_cases h : castInt m.owedX = 0 ∧ castInt m.owedY = 0 ∧ m.cursor.everSent = true ∧
        m.cursor.buttons = m.cursor.sentButtons
    · rw [if_pos h, if_pos (by simp [h.1, h.2.1, h.2.2.1, h.2.2.2])]
    · rw [if_neg h, if_neg ?_]
      intro hall
      simp only [Bool.not_not, Bool.and_eq_true, decide_eq_true_eq] at hall
      exact h ⟨hall.1.1.1, hall.1.1.2, hall.1.2, hall.2⟩
  · rfl

theorem flush_cursor (m : Motion) : (m.flush cfg).cursor = m.cursor.flush desk cfg m.owes := emit_cursor cfg _

theorem post_cursor (m : Motion) : (m.post cfg).cursor = m.cursor.post desk cfg m.owes := by
  unfold post State.post
  split
  · exact emit_cursor cfg m
  · rfl

/-- What is owed when an act comes to send. -/
def owedAt (m : Motion) (act : Act Viewport (ℚ × ℚ)) : ℚ × ℚ :=
  (m.owedX + (act.travel m.cursor.view.scale).1, m.owedY + (act.travel m.cursor.view.scale).2)

/-- A step is one of the controller, told whether whole motion is owed. -/
theorem step_cursor {m m' : Motion} {i : Config × Act Viewport (ℚ × ℚ)} (h : m.step i = some m') :
    ∃ owes, CursorController.step desk m.cursor ⟨i.1, owes, i.2⟩ = some m'.cursor := by
  obtain ⟨cfg, act⟩ := i
  have hmask : ∀ source f, (m.setMask cfg source f).cursor =
      ((({ m.cursor with sources := m.cursor.sources.modify source f }.union).flush desk cfg m.owes).clickEdge) := by
    intro source f
    rw [setMask]
    simp only
    rw [flush_cursor]
    rfl
  cases act with
  | newButtonSource =>
    cases h
    exact ⟨false, rfl⟩
  | mouseDown source mask =>
    simp only [step] at h
    split at h
    · rename_i hs
      cases h
      refine ⟨m.owes, ?_⟩
      rw [hmask]
      exact if_pos hs
    · cases h
  | mouseUp source mask =>
    simp only [step] at h
    split at h
    · rename_i hs
      cases h
      refine ⟨m.owes, ?_⟩
      rw [hmask]
      exact if_pos hs
    · cases h
  | mouseMove d =>
    cases h
    by_cases hr : m.cursor.relative = true
    · refine ⟨owes { m with owedX := (m.owedAt (.mouseMove d)).1, owedY := (m.owedAt (.mouseMove d)).2 }, ?_⟩
      show some _ = some (m.mouseMove cfg d).cursor
      unfold mouseMove State.mouseMove
      simp only
      rw [if_pos hr, if_pos hr, post_cursor]
      rfl
    · refine ⟨false, ?_⟩
      show some _ = some (m.mouseMove cfg d).cursor
      unfold mouseMove
      simp only
      rw [if_neg hr]
  | frame =>
    cases h
    refine ⟨m.owes, ?_⟩
    show some _ = some (m.frame cfg).cursor
    unfold frame State.frame
    split
    · rw [flush_cursor]
      rfl
    · rfl
  | setView view =>
    cases h
    exact ⟨false, rfl⟩
  | setRelative relative =>
    cases h
    refine ⟨false, ?_⟩
    show some _ = some (m.setRelative relative).cursor
    unfold setRelative
    split
    · rename_i hr
      rw [State.setRelative, if_pos hr]
    · rfl

/-- A run is one of the controller. -/
theorem run_cursor {m m' : Motion} {acts : List (Config × Act Viewport (ℚ × ℚ))} (h : run step m acts = some m') :
    ∃ ins, ins.map (fun i => (i.cfg, i.act)) = acts ∧ run (CursorController.step desk) m.cursor ins = some m'.cursor := by
  induction acts generalizing m with
  | nil =>
    cases h
    exact ⟨[], rfl, rfl⟩
  | cons i acts ih =>
    obtain ⟨m₁, h1, h⟩ := run_cons_some h
    obtain ⟨owes, hstep⟩ := step_cursor h1
    obtain ⟨ins, hmap, hrun⟩ := ih h
    refine ⟨⟨i.1, owes, i.2⟩ :: ins, by rw [List.map_cons, hmap], ?_⟩
    rw [run_cons, hstep]
    exact hrun

/-! ## What is paid -/

/-- Either nothing is sent and all of what was owed is still owed, or its whole part is sent and the rest is. -/
def Pays (m m' : Motion) (x y : ℚ) : Prop :=
  (m'.deltas = m.deltas ∧ m'.owedX = x ∧ m'.owedY = y) ∨
    (m'.deltas = m.deltas ++ [(castInt x, castInt y)] ∧ m'.owedX = x - float (castInt x) ∧ m'.owedY = y - float (castInt y))

theorem emit_pays (m : Motion) : Pays m (m.emit cfg) m.owedX m.owedY := by
  unfold emit
  split
  · unfold emitRelative
    simp only
    split
    · exact .inl ⟨rfl, rfl, rfl⟩
    · exact .inr ⟨rfl, rfl, rfl⟩
  · exact .inl ⟨rfl, rfl, rfl⟩

theorem emit_relative (m : Motion) : (m.emit cfg).cursor.relative = m.cursor.relative := by
  rw [emit_cursor]
  exact (m.cursor.emit_frame desk cfg m.owes).2.2.2.2.1

theorem post_pays (m : Motion) :
    Pays m (m.post cfg) m.owedX m.owedY ∧ (m.post cfg).cursor.relative = m.cursor.relative := by
  unfold post
  split
  · exact ⟨emit_pays cfg m, emit_relative cfg m⟩
  · exact ⟨.inl ⟨rfl, rfl, rfl⟩, rfl⟩

theorem flush_pays (m : Motion) :
    Pays m (m.flush cfg) m.owedX m.owedY ∧ (m.flush cfg).cursor.relative = m.cursor.relative :=
  ⟨emit_pays cfg { m with cursor := { m.cursor with framePending := false } }, emit_relative cfg _⟩

/-- A step pays what is owed by then; while the far end owns the cursor that is what was owed and the step's motion. -/
theorem step_pays {m m' : Motion} {i : Config × Act Viewport (ℚ × ℚ)} (h : m.step i = some m') :
    ∃ x y, Pays m m' x y ∧ (m.cursor.relative = true → i.2 ≠ .setRelative false →
      (x, y) = m.owedAt i.2 ∧ m'.cursor.relative = true) := by
  obtain ⟨cfg, act⟩ := i
  have hstay : m.owedX + 0 = m.owedX ∧ m.owedY + 0 = m.owedY := ⟨add_zero _, add_zero _⟩
  have hmask : ∀ source f, Pays m (m.setMask cfg source f) m.owedX m.owedY ∧
      (m.setMask cfg source f).cursor.relative = m.cursor.relative := by
    intro source f
    exact flush_pays cfg { m with cursor := { m.cursor with sources := m.cursor.sources.modify source f }.union }
  cases act with
  | newButtonSource =>
    cases h
    exact ⟨m.owedX, m.owedY, .inl ⟨rfl, rfl, rfl⟩, fun hr _ => ⟨Prod.ext hstay.1.symm hstay.2.symm, hr⟩⟩
  | mouseDown source mask =>
    simp only [step] at h
    split at h
    · cases h
      obtain ⟨hp, hrel⟩ := hmask source (· ||| mask)
      exact ⟨_, _, hp, fun hr _ => ⟨Prod.ext hstay.1.symm hstay.2.symm, hrel.trans hr⟩⟩
    · cases h
  | mouseUp source mask =>
    simp only [step] at h
    split at h
    · cases h
      obtain ⟨hp, hrel⟩ := hmask source (· &&& ~~~mask)
      exact ⟨_, _, hp, fun hr _ => ⟨Prod.ext hstay.1.symm hstay.2.symm, hrel.trans hr⟩⟩
    · cases h
  | mouseMove d =>
    cases h
    by_cases hr : m.cursor.relative = true
    · obtain ⟨hp, hrel⟩ :=
        post_pays cfg { m with owedX := (m.owedAt (.mouseMove d)).1, owedY := (m.owedAt (.mouseMove d)).2 }
      refine ⟨(m.owedAt (.mouseMove d)).1, (m.owedAt (.mouseMove d)).2, ?_, fun _ _ => ⟨rfl, ?_⟩⟩
      · rw [mouseMove, if_pos hr]
        exact hp
      · rw [mouseMove, if_pos hr]
        exact hrel.trans hr
    · refine ⟨m.owedX, m.owedY, .inl ?_, fun hr' => absurd hr' hr⟩
      rw [mouseMove, if_neg hr]
      exact ⟨rfl, rfl, rfl⟩
  | frame =>
    cases h
    unfold frame
    split
    · obtain ⟨hp, hrel⟩ := flush_pays cfg m
      exact ⟨_, _, hp, fun hr _ => ⟨Prod.ext hstay.1.symm hstay.2.symm, hrel.trans hr⟩⟩
    · exact ⟨m.owedX, m.owedY, .inl ⟨rfl, rfl, rfl⟩, fun hr _ => ⟨Prod.ext hstay.1.symm hstay.2.symm, hr⟩⟩
  | setView view =>
    cases h
    exact ⟨m.owedX, m.owedY, .inl ⟨rfl, rfl, rfl⟩, fun hr _ => ⟨Prod.ext hstay.1.symm hstay.2.symm, hr⟩⟩
  | setRelative relative =>
    cases h
    unfold setRelative
    split
    · exact ⟨m.owedX, m.owedY, .inl ⟨rfl, rfl, rfl⟩, fun hr _ => ⟨Prod.ext hstay.1.symm hstay.2.symm, hr⟩⟩
    · rename_i hne
      refine ⟨0, 0, .inl ⟨rfl, rfl, rfl⟩, fun hr hstays => ?_⟩
      cases relative with
      | false => exact absurd rfl hstays
      | true => exact absurd hr hne

/-! ## Nothing is lost -/

/-- The sum of the deltas on both axes. -/
def total (deltas : List (Int32 × Int32)) : ℚ × ℚ := (deltas.map fun d => (float d.1, float d.2)).sum

/-- The sum of the motions of a run, each over the scale at the time. -/
def travelled : Motion → List (Config × Act Viewport (ℚ × ℚ)) → ℚ × ℚ
  | _, [] => 0
  | m, i :: acts => i.2.travel m.cursor.view.scale + ((m.step i).elim 0 fun m' => travelled m' acts)

theorem total_append (l k : List (Int32 × Int32)) : total (l ++ k) = total l + total k := by
  rw [total, List.map_append, List.sum_append]
  rfl

/-- What a step sends and leaves is what was owed. -/
theorem Pays.conserves {m m' : Motion} {x y : ℚ} (h : Pays m m' x y) :
    ∃ sent, m'.deltas = m.deltas ++ sent ∧ total sent + (m'.owedX, m'.owedY) = (x, y) := by
  rcases h with ⟨hd, hx, hy⟩ | ⟨hd, hx, hy⟩
  · refine ⟨[], by rw [hd, List.append_nil], ?_⟩
    rw [hx, hy]
    exact zero_add _
  · refine ⟨_, hd, ?_⟩
    rw [hx, hy, total, List.map_singleton, List.sum_singleton]
    exact Prod.ext (add_sub_cancel _ _) (add_sub_cancel _ _)

/-- While the far end owns the cursor, what a run sends and leaves is what was owed and its motion. -/
theorem run_conserves {m m' : Motion} {acts : List (Config × Act Viewport (ℚ × ℚ))} (hr : m.cursor.relative = true)
    (hstay : ∀ i ∈ acts, i.2 ≠ .setRelative false) (h : run step m acts = some m') :
    ∃ sent, m'.deltas = m.deltas ++ sent ∧
      total sent + (m'.owedX, m'.owedY) = (m.owedX, m.owedY) + m.travelled acts := by
  induction acts generalizing m with
  | nil =>
    cases h
    exact ⟨[], (List.append_nil _).symm, (zero_add _).trans (add_zero _).symm⟩
  | cons i acts ih =>
    obtain ⟨m₁, h1, h⟩ := run_cons_some h
    obtain ⟨x, y, hpays, howed⟩ := step_pays h1
    obtain ⟨hxy, hr1⟩ := howed hr (hstay i List.mem_cons_self)
    obtain ⟨sent, hd, hsum⟩ := hpays.conserves
    obtain ⟨rest, hd', hsum'⟩ := ih hr1 (fun j hj => hstay j (List.mem_cons_of_mem _ hj)) h
    refine ⟨sent ++ rest, by rw [hd', hd, List.append_assoc], ?_⟩
    have hat : m.owedAt i.2 = (m.owedX, m.owedY) + i.2.travel m.cursor.view.scale := rfl
    rw [travelled, h1, Option.elim_some, total_append, add_assoc, hsum', ← add_assoc, hsum, hxy, hat, add_assoc]

end Motion

end CursorController

end Vento.Control
