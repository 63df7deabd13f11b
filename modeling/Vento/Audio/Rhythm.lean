import Mathlib.Algebra.Order.Group.Unbundled.Int
import Mathlib.Algebra.Ring.Int.Defs
import Mathlib.Algebra.Ring.Nat
import Vento.Lib.Runs
/-!
# How a far end's sound arrives

`runtime/src/media/audio/rhythm.rs`, with the formats and durations of
`media/audio/mod.rs`. Each write has a lateness `d`, its arrival less where its first
frame falls in the run of writes it belongs to, and what a queue has to hold is worked
out from the largest rise of `d` of late. Of late is the last eight buckets of a
second, each of which keeps the least and the most `d` of the run that wrote in it last
and the largest rise that it has seen.

A duration is a number of nanoseconds. The source keeps the buckets in a ring with the
place of the newest; here they stand oldest first. Differences of `d` are taken as
integers: they fit an `i64` for any times a clock can show.
-/

namespace Vento.Audio

open Vento.Lib

/-- Frames a second and samples a frame, as `Format::new` accepts them. -/
structure Format where
  rate : Nat
  channels : Nat
  rate_ok : 8000 ≤ rate ∧ rate ≤ 384000
  channels_ok : 1 ≤ channels ∧ channels ≤ 8
deriving DecidableEq, Repr

namespace Duration

def micros (n : Nat) : Nat := n * 1000

def millis (n : Nat) : Nat := n * 1000000

def secs (n : Nat) : Nat := n * 1000000000

def asMicros (d : Nat) : Nat := d / 1000

end Duration

open Duration

namespace Format

/-- How many frames last `d`, rounded down. -/
def frames (f : Format) (d : Nat) : Nat := asMicros d * f.rate / 1000000

/-- How long `n` frames last. -/
def duration (f : Format) (n : Nat) : Nat := micros (n * 1000000 / f.rate)

theorem frames_mono (f : Format) {d e : Nat} (h : d ≤ e) : f.frames d ≤ f.frames e :=
  Nat.div_le_div_right (Nat.mul_le_mul_right _ (Nat.div_le_div_right h))

end Format

namespace Rhythm

def window : Nat := secs 8

def bucketCount : Nat := 8

def most : Nat := millis 500

/-- Two writes this close are one. -/
def together : Nat := millis 2

/-- The length of a bucket. -/
def bucketLen : Nat := window / bucketCount

/-- The least and the most `d`, and the largest rise from an earlier one to a later. -/
structure Spread where
  lo : Int
  hi : Int
  rise : Int
deriving DecidableEq, Repr

def Spread.fromRise (d rise : Int) : Spread := ⟨d, d, rise⟩

def Spread.add (s : Spread) (d : Int) : Spread := ⟨min s.lo d, max s.hi d, max s.rise (d - s.lo)⟩

structure Bucket where
  run : UInt32
  used : Bool
  each : Spread
  first : Spread
  write : Nat
  group : Nat
  grouped : Bool
deriving DecidableEq, Repr

def Bucket.default : Bucket := ⟨0, false, ⟨0, 0, 0⟩, ⟨0, 0, 0⟩, 0, 0, false⟩

/-- `micros`: no more than an `i64` holds. -/
def microsInt (d : Nat) : Int := min (asMicros d) (2 ^ 63 - 1)

end Rhythm

/-- The buckets are eight, the newest last. -/
structure Rhythm where
  format : Format
  older : List Rhythm.Bucket
  current : Rhythm.Bucket
  started : Nat
  run : UInt32
  origin : Option Nat
  frames : Nat
  last : Option Nat
  size : Nat
  group : Nat
  first : Int

namespace Rhythm

def new (format : Format) : Rhythm where
  format
  older := List.replicate (bucketCount - 1) Bucket.default
  current := Bucket.default
  started := 0
  run := 0
  origin := none
  frames := 0
  last := none
  size := 0
  group := 0
  first := 0

def buckets (r : Rhythm) : List Bucket := r.older ++ [r.current]

/-- The window moves on by a bucket. -/
def shift (r : Rhythm) : Rhythm :=
  { r with older := (r.older ++ [r.current]).tail, current := Bucket.default }

/-- How many buckets the window moves on by for a write at `t`, cast to a `u32`. -/
def steps (started t : Nat) : Nat :=
  if t < started + bucketLen then 0 else asMicros (t - started) / asMicros bucketLen % 2 ^ 32

def beginAt (r : Rhythm) (started : Nat) : Rhythm := { r with started }

def advance (r : Rhythm) (t : Nat) : Rhythm :=
  let n := steps r.started t
  beginAt (shift^[min n bucketCount] r) (r.started + bucketLen * n)

/-- Whether a write arriving at `t` was sent with the last. -/
def sentWithLast (r : Rhythm) (t : Nat) : Bool :=
  r.last.any fun last => t - last < r.format.duration r.size / 2

/-- Where the run's next frame falls against `t`. -/
def lateAt (r : Rhythm) (origin t : Nat) : Int := microsInt (t - origin) - microsInt (r.format.duration r.frames)

/-- `wrote` once the window has moved on. -/
def record (r : Rhythm) (t frames : Nat) (burst : Bool) : Rhythm :=
  let origin := r.origin.getD t
  let d := r.lateAt origin t
  let isTogether := r.last.any fun last => t - last ≤ together
  let withLast := r.sentWithLast t
  let first := if withLast then r.first else d
  let size := if burst then 0 else frames
  let group := if isTogether then r.group + size else size
  let b := r.current
  let b :=
    if !b.used || b.run ≠ r.run then
      -- what it measured of the run before is kept, the `d`s are measured afresh
      { b with
        run := r.run
        used := true
        each := .fromRise d b.each.rise
        first := .fromRise first b.first.rise }
    else b
  { r with
    origin := some origin
    frames := r.frames + frames
    first
    last := some t
    size := frames
    group
    current := { b with
      each := b.each.add d
      first := b.first.add first
      write := max b.write size
      group := max b.group group
      grouped := b.grouped || (withLast && !burst) } }

def wrote (r : Rhythm) (t frames : Nat) (burst : Bool) : Rhythm := (r.advance t).record t frames burst

/-- Oldest first, each bucket's writes against the least `d` before them in the same
run: the largest rise so far, and that least `d` with its run. -/
def scan (a : Int × Option (UInt32 × Int)) (b : UInt32 × Spread) : Int × Option (UInt32 × Int) :=
  let rise := max a.1 b.2.rise
  match a.2 with
  | some (run, least) =>
    if run = b.1 then (max rise (b.2.hi - least), some (run, min least b.2.lo)) else (rise, some (b.1, b.2.lo))
  | none => (rise, some (b.1, b.2.lo))

def scanned (only : Option UInt32) (spread : Bucket → Spread) (bs : List Bucket) : List (UInt32 × Spread) :=
  (bs.filter fun b => b.used && only.all fun run => run = b.run).map fun b => (b.run, spread b)

/-- The largest rise in `d` of the window, in microseconds. -/
def rise (r : Rhythm) (only : Option UInt32) (spread : Bucket → Spread) : Int :=
  max ((scanned only spread r.buckets).foldl scan (0, none)).1 0

def restart (r : Rhythm) : Rhythm :=
  let each := r.rise (some r.run) Bucket.each
  let first := r.rise (some r.run) Bucket.first
  let b := r.current
  { r with
    current :=
      if b.used then
        { b with
          each := { b.each with rise := max b.each.rise each }
          first := { b.first with rise := max b.first.rise first } }
      else b
    run := r.run + 1
    origin := none
    frames := 0
    last := none
    size := 0
    group := 0 }

/-- The most of a list of counts. -/
def largest (l : List Nat) : Nat := l.foldl max 0

/-- How much the queue has to hold, in frames. -/
def hold (r : Rhythm) : Nat :=
  let used := r.buckets.filter Bucket.used
  let write := largest (used.map Bucket.write)
  let group := largest (used.map Bucket.group)
  let cap := r.format.frames most
  let rise := min (r.format.frames (micros (r.rise none Bucket.each).toNat)) cap
  min (max group (write + rise)) cap

/-- The largest rise of the window in when a group of writes was let go of. -/
def lateness (r : Rhythm) : Nat :=
  min (r.format.frames (micros (r.rise none Bucket.first).toNat)) (r.format.frames most)

/-- The buckets of the run under way. -/
def ofRun (r : Rhythm) : List Bucket := r.buckets.filter fun b => b.used && b.run = r.run

/-- How much later than its sound a write that arrives at `t` is, in frames. -/
def lateNow (r : Rhythm) (t : Nat) : Nat :=
  match r.origin with
  | none => 0
  | some origin =>
    let d := if r.sentWithLast t then r.first else r.lateAt origin t
    let late := match (r.ofRun.map fun b => b.first.lo).min? with
      | none => 0
      | some least => max (d - least) 0
    r.format.frames (micros late.toNat)

/-- The window moves on first. -/
def lateBy (r : Rhythm) (t : Nat) : Rhythm × Nat := (r.advance t, (r.advance t).lateNow t)

/-- What a queue that starts playing at `t` has to have. -/
def keep (r : Rhythm) (t : Nat) : Nat :=
  match r.origin with
  | none => 0
  | some origin =>
    let keep := match (r.ofRun.map fun b => b.first.hi).max? with
      | none => 0
      | some latest => max (latest - r.lateAt origin t) 0
    min (r.format.frames (micros keep.toNat)) (r.format.frames most)

def sinceLast (r : Rhythm) (t : Nat) : Nat := r.last.elim 0 fun last => t - last

/-- Whether the last write may still be followed by others sent with it. -/
def gathering (r : Rhythm) (t within : Nat) : Bool :=
  (r.buckets.any fun b => b.used && b.grouped) && r.sentWithLast t && r.sinceLast t < within

/-! ## The format stays -/

theorem iterate_shift_format (r : Rhythm) (n : Nat) : (shift^[n] r).format = r.format := by
  induction n with
  | zero => rfl
  | succ n ih =>
    rw [Function.iterate_succ_apply']
    exact ih

theorem beginAt_format (r : Rhythm) (started : Nat) : (r.beginAt started).format = r.format := rfl

theorem advance_format (r : Rhythm) (t : Nat) : (r.advance t).format = r.format := by
  rw [advance, beginAt_format, iterate_shift_format]

theorem record_format (r : Rhythm) (t frames : Nat) (burst : Bool) : (r.record t frames burst).format = r.format := rfl

theorem wrote_format (r : Rhythm) (t frames : Nat) (burst : Bool) : (r.wrote t frames burst).format = r.format := by
  rw [wrote, record_format, advance_format]

theorem restart_format (r : Rhythm) : r.restart.format = r.format := rfl

theorem lateBy_format (r : Rhythm) (t : Nat) : (r.lateBy t).1.format = r.format := advance_format r t

end Rhythm

end Vento.Audio
