import Vento.Lib.Alternate
/-!
# The pointer's buttons and what takes them

`control/input/Button.java` and the calls of `control/input/MouseSink.java`. A
button is one button, and a mask a set of them. How far a move goes is left out:
nothing here depends on it.
-/

namespace Vento.Control

open Vento.Lib

theorem or_and_mask (a b m : UInt32) : (a ||| b) &&& m = (a &&& m) ||| (b &&& m) := by
  rw [← UInt32.toBitVec_inj]
  ext i hi
  simp [Bool.and_or_distrib_right]

theorem or_and_mask_eq_zero {a b m : UInt32} : (a ||| b) &&& m = 0 ↔ a &&& m = 0 ∧ b &&& m = 0 := by
  rw [or_and_mask, UInt32.or_eq_zero_iff]

/-- A mask taken out of a union leaves what it has nothing of. -/
theorem or_and_not_mask {a m : UInt32} (h : a &&& m = 0) : (a ||| m) &&& ~~~m = a := by
  rw [← UInt32.toBitVec_inj] at h ⊢
  ext i hi
  have hbit := congrArg (BitVec.getLsbD · i) h
  simp only [UInt32.toBitVec_and, BitVec.getLsbD_and, UInt32.toBitVec_zero, BitVec.getLsbD_zero] at hbit
  simp only [UInt32.toBitVec_and, UInt32.toBitVec_or, UInt32.toBitVec_not, ← BitVec.getLsbD_eq_getElem]
  cases ha : a.toBitVec.getLsbD i <;> cases hm : m.toBitVec.getLsbD i <;> simp_all

/-- The buttons that any of these masks has. -/
def unionOf (masks : List UInt32) : UInt32 := masks.foldl (· ||| ·) 0

/-- The union lacks what every mask lacks. -/
theorem unionOf_and_eq_zero (masks : List UInt32) (b : UInt32) : unionOf masks &&& b = 0 ↔ ∀ m ∈ masks, m &&& b = 0 := by
  have go : ∀ a : UInt32, masks.foldl (· ||| ·) a &&& b = 0 ↔ a &&& b = 0 ∧ ∀ m ∈ masks, m &&& b = 0 := by
    induction masks with
    | nil => simp
    | cons m masks ih =>
      intro a
      rw [List.foldl_cons, ih, or_and_mask_eq_zero, and_assoc, List.forall_mem_cons]
  simpa [unionOf] using go 0

theorem unionOf_snoc (masks : List UInt32) (m : UInt32) : unionOf (masks ++ [m]) = unionOf masks ||| m := by
  simp [unionOf]

inductive Button where
  | left
  | middle
  | right
  | wheelUp
  | wheelDown
  | wheelLeft
  | wheelRight
  | back
  | forward
deriving DecidableEq, Repr

namespace Button

def mask : Button → UInt32
  | left => 1
  | middle => 2
  | right => 4
  | wheelUp => 8
  | wheelDown => 16
  | wheelLeft => 32
  | wheelRight => 64
  | back => 128
  | forward => 256

/-- Is this button in `mask`? -/
def isIn (b : Button) (mask : UInt32) : Bool := mask &&& b.mask ≠ 0

/-- The four whose presses are an axis. -/
def isWheel : Button → Bool
  | wheelUp | wheelDown | wheelLeft | wheelRight => true
  | _ => false

def all : List Button := [left, middle, right, wheelUp, wheelDown, wheelLeft, wheelRight, back, forward]

/-- A button's mask holds this button and no other. -/
theorem isIn_mask (b c : Button) : b.isIn c.mask = decide (b = c) := by
  cases b <;> cases c <;> decide

theorem mask_inj {b c : Button} (h : b.mask = c.mask) : b = c := by
  have := isIn_mask b c
  rw [← h, isIn_mask] at this
  simpa using this

theorem isIn_or (b : Button) (m n : UInt32) : b.isIn (m ||| n) = (b.isIn m || b.isIn n) := by
  rw [Bool.eq_iff_iff]
  simp only [isIn, ne_eq, decide_eq_true_eq, Bool.or_eq_true, or_and_mask_eq_zero]
  tauto

/-- A button taken out of a mask leaves the others in it. -/
theorem isIn_and_not (b c : Button) (m : UInt32) : b.isIn (m &&& ~~~c.mask) = (b.isIn m && decide (b ≠ c)) := by
  have hbits : ~~~c.mask &&& b.mask = if b = c then 0 else b.mask := by
    cases b <;> cases c <;> decide
  unfold isIn
  rw [UInt32.and_assoc, hbits]
  split
  · simp [*]
  · simp [*]

theorem isIn_zero (b : Button) : b.isIn 0 = false := by
  cases b <;> decide

end Button

inductive MouseCall where
  | mouseMove
  | mouseDown (mask : UInt32)
  | mouseUp (mask : UInt32)
deriving DecidableEq, Repr

namespace MouseCall

def downs (b : Button) : MouseCall → Bool
  | mouseDown mask => b.isIn mask
  | _ => false

def ups (b : Button) : MouseCall → Bool
  | mouseUp mask => b.isIn mask
  | _ => false

/-- A press and its release, at once. -/
def click (b : Button) : List MouseCall := [mouseDown b.mask, mouseUp b.mask]

end MouseCall

end Vento.Control
