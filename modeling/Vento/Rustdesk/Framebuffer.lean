import Vento.Video.Diff
/-!
# The picture on screen and the one behind it

`rustdesk/src/framebuffer.rs`: the pixels the drawing thread reads, which a decoded buffer is swapped
into, and the buffer the next picture is decoded into (`Back`). A buffer that comes back from a swap
has the picture before last, so the rows of the last picture are carried into it.
-/

namespace Vento.Rustdesk.Display

open Vento.Lib (Buffer)
open Vento.Video (Changes)

/-- A decoded picture. -/
structure Picture where
  width : Nat
  height : Nat
  pixel : Nat → Nat → UInt32

namespace Picture

def pixel? (p : Picture) (r c : Nat) : Option UInt32 :=
  if r < p.height ∧ c < p.width then some (p.pixel r c) else none

/-- The part that the picture and a buffer of `w` by `h` have in common, in the rows selected. -/
def write (p : Picture) (out : Buffer UInt32) (w h : Nat) (rows : Nat → Bool) : Buffer UInt32 :=
  out.writeRows w (min p.width w) (min p.height h) rows p.pixel

theorem write_get (p : Picture) (out : Buffer UInt32) {w h : Nat} (rows : Nat → Bool) {r c : Nat} (hr : r < h)
    (hc : c < w) :
    (p.write out w h rows).get (r * w + c) =
      if rows r = true then (p.pixel? r c).getD (out.get (r * w + c)) else out.get (r * w + c) := by
  unfold write pixel?
  rw [Buffer.writeRows_get out (min p.height h) rows p.pixel (Nat.min_le_right _ _) hc]
  by_cases hin : r < p.height ∧ c < p.width
  · have hr' : r < min p.height h := by omega
    have hc' : c < min p.width w := by omega
    simp [hin, hr', hc']
  · have hn : ¬(r < min p.height h ∧ rows r = true ∧ c < min p.width w) := by omega
    rw [if_neg hn, if_neg hin, Option.getD_none, ite_self]

@[simp] theorem write_len (p : Picture) (out : Buffer UInt32) (w h : Nat) (rows : Nat → Bool) :
    (p.write out w h rows).len = out.len := Buffer.writeRows_len _ _ _ _ _ _

end Picture

/-- Opaque black, in every pixel. -/
def blank (width height : Nat) : Buffer UInt32 := ⟨width * height, fun _ => 0xff000000⟩

structure Framebuffer where
  width : Nat
  height : Nat
  pixels : Buffer UInt32
  gpu : Option Picture
  behind : Bool

namespace Framebuffer

def new : Framebuffer := ⟨0, 0, ⟨0, fun _ => 0⟩, none, false⟩

def resize (_ : Framebuffer) (width height : Nat) : Framebuffer := ⟨width, height, blank width height, none, false⟩

/-- Installs `next`, and gives back what was there; `none` if it is not this desktop's size. -/
def swap (fb : Framebuffer) (next : Buffer UInt32) : Option (Framebuffer × Buffer UInt32) :=
  if next.len ≠ fb.width * fb.height ∨ fb.width = 0 then none
  else some ({ fb with pixels := next, gpu := none, behind := false }, fb.pixels)

def showGpu (fb : Framebuffer) (picture : Picture) : Option Framebuffer :=
  if (picture.width, picture.height) ≠ (fb.width, fb.height) ∨ fb.width = 0 then none
  else some { fb with gpu := some picture, behind := true }

/-- Reads the picture on the GPU back, if the pixels are older; `ok` is whether it could be read. -/
def catchUp (fb : Framebuffer) (ok : Bool) : Framebuffer :=
  if fb.behind then
    match fb.gpu with
    | some picture =>
      if ok then { fb with behind := false, pixels := picture.write fb.pixels fb.width fb.height fun _ => true }
      else { fb with behind := false }
    | none => { fb with behind := false }
  else fb

/-- The rows that `behind` selects, into `dst`. -/
def carryRows (fb : Framebuffer) (dst : Buffer UInt32) (behind : Nat → Bool) : Option (Buffer UInt32) :=
  if fb.width = 0 ∨ dst.len ≠ fb.width * fb.height then none
  else some (dst.writeRows fb.width fb.width fb.height behind fun r c => fb.pixels.get (r * fb.width + c))

/-- What is read of a pixel, through `catch_up`. -/
def shown (fb : Framebuffer) (r c : Nat) : UInt32 := (fb.catchUp true).pixels.get (r * fb.width + c)

end Framebuffer

structure Back where
  pixels : Buffer UInt32
  /-- The rows this frame converted, and the rows the last one did. -/
  changed : Changes
  carried : Changes
  /-- These pixels have lost track of the picture on screen. -/
  stale : Bool

namespace Back

def new : Back := ⟨⟨0, fun _ => 0⟩, Changes.new, Changes.new, true⟩

def resize (b : Back) (width height : Nat) : Back := { b with pixels := blank width height, stale := true }

/-- Nothing has changed yet, or all of it if these pixels have lost track. -/
def begin (b : Back) (width height : Nat) : Back :=
  let changed := b.changed.reset height
  { b with changed := if b.stale then changed.all width height else changed }

/-- The rows that the last frame converted and this one did not, from the picture on screen. -/
def carry (b : Back) (from_ : Framebuffer) : Bool × Back :=
  match from_.carryRows b.pixels fun row => b.carried.row row && !b.changed.row row with
  | none => (false, { b with stale := true })
  | some pixels => (true, { b with pixels })

def swapped (b : Back) : Back := { b with changed := b.carried, carried := b.changed, stale := false }

def lost (b : Back) : Back := { b with stale := true }

end Back

end Vento.Rustdesk.Display
