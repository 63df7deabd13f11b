import Mathlib.Algebra.BigOperators.Group.List.Basic
import Mathlib.Algebra.Order.BigOperators.Group.List
import Mathlib.Algebra.Order.Ring.Int
/-!
# Lengths changed along a line

Spans of a line, each with the length it is changed to. A span is moved by what those that end at or before its
start lose (`moved`), so that two that touch still do unless others that end between them lose something
(`moved_gap`).
-/

namespace Vento.Lib

/-- A part of a line, and how long it is to be. -/
structure Span where
  start : Int
  size : Int
  now : Int

namespace Span

def stop (s : Span) : Int := s.start + s.size

def lost (s : Span) : Int := s.size - s.now

/-- What the spans that end at or before `p` lose. -/
def lostBy (l : List Span) (p : Int) : Int := ((l.filter fun s => s.stop ≤ p).map lost).sum

/-- Where a span starts once all are changed. -/
def moved (l : List Span) (s : Span) : Int := s.start - lostBy l s.start

/-- What is lost between the starts of `a` and of `b`, but by `a`. -/
def between (l : List Span) (a b : Span) : Int := lostBy l b.start - lostBy l a.start - a.lost

/-- What all lose or gain. -/
def change (l : List Span) : Int := (l.map fun s => |s.lost|).sum

theorem lostBy_nil (p : Int) : lostBy [] p = 0 := rfl

theorem lostBy_cons (s : Span) (l : List Span) (p : Int) :
    lostBy (s :: l) p = (if s.stop ≤ p then s.lost else 0) + lostBy l p := by
  unfold lostBy
  rw [List.filter_cons]
  by_cases h : s.stop ≤ p
  · simp [h]
  · simp [h]

/-- The gap between two spans changes by what is lost between them. -/
theorem moved_gap (l : List Span) (a b : Span) :
    moved l b - (moved l a + a.now) = (b.start - a.stop) - between l a b := by
  simp only [moved, between, stop, lost]
  omega

theorem abs_lostBy_sub_le (l : List Span) (p q : Int) : |lostBy l p - lostBy l q| ≤ change l := by
  induction l with
  | nil => simp [lostBy, change]
  | cons s l ih =>
    have hchange : change (s :: l) = |s.lost| + change l := by simp [change]
    rw [lostBy_cons, lostBy_cons, hchange]
    have hsplit : (if s.stop ≤ p then s.lost else 0) + lostBy l p - ((if s.stop ≤ q then s.lost else 0) + lostBy l q) =
        ((if s.stop ≤ p then s.lost else 0) - (if s.stop ≤ q then s.lost else 0)) + (lostBy l p - lostBy l q) := by omega
    have hone : |(if s.stop ≤ p then s.lost else 0) - (if s.stop ≤ q then s.lost else 0)| ≤ |s.lost| := by
      split <;> split <;> simp
    rw [hsplit]
    exact (abs_add_le _ _).trans (add_le_add hone ih)

end Span

end Vento.Lib
