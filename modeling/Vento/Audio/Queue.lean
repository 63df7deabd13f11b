import Vento.Audio.Resample
/-!
# The sound between a protocol's writes and a device's reads

`Queue` of `media/audio/queue.rs`, with the constants and the remembered lateness of
`media/audio/mod.rs`. One record holds the queue, what is behind its lock and how late
the session's sound has turned out to be, which other streams of the session change too.
Every call of the source holds the lock throughout, so a run of calls is a list of them.

A factor of the gain is not computed: `Volume` is what the device's thread makes of it.
The notes for the log are left out.
-/

namespace Vento.Audio

open Vento.Lib Duration

/-! ## The policy's constants -/

namespace Policy

def margin : Nat := millis 10

def marginStart : Nat := millis 30

def cleanStart : Nat := secs 10

def marginMax : Nat := millis 100

def marginStep : Nat := millis 5

def clean : Nat := secs 30

def limit : Nat := millis 250

def resume : Nat := millis 500

def settle : Nat := millis 5

def gather : Nat := millis 25

def fade : Nat := micros 2500

end Policy

/-! ## What the session remembers of how late its sound is, in microseconds -/

namespace Controls

/-- A queue ran dry, and its writes have been as late as `seen`. -/
def ranDry (late seen : Nat) : Nat := min (max late (asMicros seen) + asMicros Policy.marginStep) (asMicros Policy.marginMax)

/-- A queue has played for long without running dry. -/
def clean (late : Nat) : Nat := late - asMicros Policy.marginStep

end Controls

/-- What a gain's factor comes to: as sent, nothing, or by a factor in 16.16. -/
inductive Volume where
  | full
  | silent
  | scaled (factor : Int)
deriving DecidableEq, Repr

def Volume.gain : Volume → Int → Int
  | .full, s => s
  | .silent, _ => 0
  | .scaled factor, s => max (-32768) (min ((s * factor) >>> (16 : Nat)) 32767)

structure Stats where
  written : Nat
  dropped : Nat
  underruns : Nat
deriving DecidableEq, Repr

def usizeMax : Nat := 2 ^ 64 - 1

structure Queue where
  format : Format
  buffer : Nat
  period : Nat
  late : Nat
  samples : List Int
  primed : Bool
  waited : Nat
  rhythm : Rhythm
  pulled : Nat
  low : Nat
  since : Option Nat
  dry : Option Nat
  clean : Nat
  start : Nat
  fresh : Nat
  catching : Option Nat
  resume : Option Nat
  gathering : Bool
  resampler : Resampler
  stats : Stats

namespace Queue

def new (format : Format) : Queue where
  format
  buffer := 0
  period := 0
  late := 0
  samples := []
  primed := false
  waited := 0
  rhythm := Rhythm.new format
  pulled := 0
  low := usizeMax
  since := none
  dry := none
  clean := 0
  start := Policy.marginStart - Policy.margin
  fresh := 0
  catching := none
  resume := none
  gathering := false
  resampler := Resampler.new
  stats := ⟨0, 0, 0⟩

/-- `set_device`, in microseconds that fit a `u64`. -/
def setDevice (q : Queue) (buffer period : Nat) : Queue :=
  { q with buffer := min (asMicros buffer) (2 ^ 64 - 1), period := min (asMicros period) (2 ^ 64 - 1) }

/-- The frames queued. -/
def queued (q : Queue) : Nat := q.samples.length / q.format.channels

/-- The device's period, in frames of the stream. -/
def periodFrames (q : Queue) : Nat := q.format.frames (micros q.period)

/-- The margin, in frames of the stream. -/
def margin (q : Queue) : Nat :=
  let late := q.format.frames (micros q.late) - q.rhythm.lateness
  q.format.frames Policy.margin + max late (q.format.frames q.start)

/-- The target, in frames of the stream. -/
def target (q : Queue) : Nat := q.periodFrames + q.rhythm.hold + q.margin

/-- The queue's share of the limit, in frames of the stream. -/
def limit (q : Queue) : Nat := max (q.format.frames (Policy.limit - micros q.buffer)) (q.target * 2)

/-! ## Dropping -/

/-- The sample at frame `i` of a fade over `fade` frames. -/
def blend (fade i : Nat) (old new : Int) : Int :=
  let w : Int := ((i + 1) <<< 16 / (fade + 1) : Nat)
  (old * (65536 - w) + new * w) >>> (16 : Nat)

/-- How many frames a skip of `frames` fades over. -/
def fadeOver (q : Queue) (frames : Nat) : Nat := min (min (q.format.frames Policy.fade) frames) (q.queued - frames)

/-- Drops the oldest `frames`, fading what would have played next into what plays
instead. The frames faded from are all before those faded into. -/
def skip (q : Queue) (frames : Nat) : Queue :=
  let channels := q.format.channels
  let frames := min frames q.queued
  let fade := q.fadeOver frames
  { q with
    samples := (q.samples.drop (frames * channels)).mapIdx fun k new =>
      if k < fade * channels then blend fade (k / channels) (q.samples.getD k 0) new else new
    stats := { q.stats with dropped := q.stats.dropped + frames }
    resampler := q.resampler.reset }

/-- The next window of the least queued before a write. -/
def newWindow (q : Queue) : Queue := { q with low := usizeMax, since := none }

/-- Drops the oldest down to `keep` frames. -/
def trimTo (q : Queue) (keep : Nat) : Queue :=
  if keep < q.queued then (q.skip (q.queued - keep)).newWindow else q.newWindow

def trim (q : Queue) : Queue := q.trimTo q.target

/-- Drops what the queue kept beyond its margin for a whole window. -/
def settle (q : Queue) : Queue :=
  let excess := q.low - q.margin
  if q.format.frames Policy.settle ≤ excess then (q.skip excess).newWindow else q.newWindow

/-! ## Writing -/

/-- Whether a write is a burst, and the far end's catching up after it. -/
def catchUp (q : Queue) (frames t : Nat) : Bool × Option Nat :=
  let burst := decide (q.format.frames Policy.limit < frames)
  match q.catching with
  | some last => if t - last < q.format.duration frames / 2 then (true, some t) else (burst, none)
  | none => (burst, none)

/-- What `wrote` makes of when a write arrived: whether the queue ran dry for it, and
why. -/
def arrived (q : Queue) (frames t : Nat) : Queue :=
  let (burst, catching) := q.catchUp frames t
  match q.dry with
  | some dry =>
    if dry < Policy.resume then
      let (rhythm, behind) := q.rhythm.lateBy t
      if Policy.marginMax < q.format.duration behind then
        -- a stall: the far end's sound starts a new run
        { q with
          dry := none
          clean := 0
          fresh := 0
          rhythm := rhythm.restart.wrote t frames true
          catching := some t
          resume := none }
      else
        let rhythm := rhythm.wrote t frames burst
        { q with
          dry := none
          clean := 0
          fresh := 0
          rhythm
          late := Controls.ranDry q.late (q.format.duration rhythm.lateness)
          catching
          resume := some (rhythm.keep t) }
    else
      -- a new sound after a pause of the far end's own
      { q with dry := none, rhythm := q.rhythm.restart.wrote t frames burst, catching, resume := none }
  | none =>
    let rhythm := q.rhythm.wrote t frames burst
    { q with rhythm, catching, resume := q.resume.map fun _ => rhythm.keep t }

/-- A write on top of `before` samples while playing: the least queued, and what has
played without running dry. -/
def noteClean (q : Queue) (before frames t : Nat) : Queue :=
  { q with
    since := some (q.since.getD t)
    low := min q.low (before / q.format.channels)
    clean := q.clean + frames
    fresh := q.fresh + frames }

/-- The start's margin comes down a step. -/
def easeStart (q : Queue) : Queue :=
  if q.start ≠ 0 ∧ Policy.cleanStart ≤ q.format.duration q.fresh then
    { q with fresh := 0, start := q.start - Policy.marginStep }
  else q

/-- The session forgets a step. -/
def easeLate (q : Queue) : Queue :=
  if Policy.clean ≤ q.format.duration q.clean then { q with clean := 0, late := Controls.clean q.late } else q

/-- What is measured of a write while the queue plays. -/
def playing (q : Queue) (before frames t : Nat) : Queue :=
  if q.primed then
    let q := (q.noteClean before frames t).easeStart.easeLate
    if Rhythm.window ≤ t - q.since.getD t then q.settle else q
  else q

/-- Past the limit the oldest goes. -/
def withinLimit (q : Queue) : Queue := if q.limit * q.format.channels < q.samples.length then q.trim else q

/-- `samples` more were queued at `t`, on top of `before`. -/
def wrote (q : Queue) (before samples t : Nat) : Queue :=
  let frames := samples / q.format.channels
  let q := { q with waited := 0, stats := { q.stats with written := q.stats.written + frames } }
  ((q.arrived frames t).playing before frames t).withinLimit

/-- Whole frames; a trailing part of a frame is dropped. -/
def write (q : Queue) (samples : List Int) (t : Nat) : Queue :=
  let whole := samples.length / q.format.channels * q.format.channels
  { q with samples := q.samples ++ samples.take whole }.wrote q.samples.length whole t

/-! ## Reading -/

/-- What the queue has to have to start: after running dry on a late write, what lasts
until the next as late as the latest. -/
def startAt (q : Queue) (device : Format) : Nat :=
  match q.resume with
  | some keep =>
    min q.target (q.periodFrames + q.margin + (keep - q.format.frames (device.duration q.waited)))
  | none => q.target

/-- Starts playing, at the target and not behind it. -/
def prime (q : Queue) (now : Nat) : Queue :=
  let waited := if q.gathering then q.format.frames (q.rhythm.sinceLast now) else 0
  let least := q.periodFrames + q.margin
  let q := q.trimTo (max (q.target - waited) least)
  { q with
    gathering := false
    primed := true
    waited := 0
    resume := none
    resampler := q.resampler.reset }

/-- A pull of `frames` by a device that has been filled, before the queue plays. -/
def await (q : Queue) (device : Format) (frames now : Nat) : Queue :=
  let target := q.startAt device
  let full := decide (target ≤ q.queued) && q.catching.isNone
  if full && q.resume.isNone && q.rhythm.gathering now Policy.gather then { q with gathering := true }
  else if full || (decide (0 < q.queued) && decide (device.frames (q.format.duration target) ≤ q.waited)) then q.prime now
  else if 0 < q.queued then { q with waited := q.waited + frames }
  else q

/-- What the queue is after handing over what the run filled. -/
def took (q : Queue) (device : Format) (frames : Nat) (ran : Resampler.Ran) : Queue :=
  if ran.filled.length < frames then
    { q with
      resampler := ran.resampler
      samples := ran.source
      primed := false
      waited := 0
      stats := { q.stats with underruns := q.stats.underruns + 1 }
      dry := some (device.duration (frames - ran.filled.length)) }
  else { q with resampler := ran.resampler, samples := ran.source }

/-- A pull that nothing is played to. -/
def stayDry (q : Queue) (device : Format) (frames : Nat) : Queue :=
  { q with dry := q.dry.map fun dry => if dry < Policy.resume then dry + device.duration frames else dry }

/-- A pull's frames once the queue has started or has not: the queue and the frames of
sound. -/
def play (q : Queue) (device : Format) (frames : Nat) : Queue × List (List Int) :=
  if q.primed then
    let ran := q.resampler.run q.samples q.format device frames
    (q.took device frames ran, ran.filled)
  else (q.stayDry device frames, [])

/-- A device that has just opened is filled with silence first. -/
def filling (q : Queue) (device : Format) : Bool := q.pulled < device.frames (micros q.buffer)

def counted (q : Queue) (frames : Nat) : Queue := { q with pulled := min (q.pulled + frames) usizeMax }

/-- What a pull of `frames` frames finds. -/
def ready (q : Queue) (device : Format) (frames now : Nat) : Queue :=
  if !q.primed && !q.filling device then (q.counted frames).await device frames now else q.counted frames

/-- The queue after a pull of `frames` frames, and the frames of sound in it. -/
def pull (q : Queue) (device : Format) (frames now : Nat) : Queue × List (List Int) :=
  (q.ready device frames now).play device frames

/-- What the device is handed: the sound, gained, and silence for the rest. -/
def heard (device : Format) (frames : Nat) (volume : Volume) (sound : List (List Int)) : List Int :=
  sound.flatten.map volume.gain ++ List.replicate ((frames - sound.length) * device.channels) 0

/-! ## Runs -/

/-- The calls of the protocol, the device and the session's other streams. -/
inductive Act where
  | write (samples : List Int) (t : Nat)
  | pull (device : Format) (frames now : Nat)
  | setDevice (buffer period : Nat)
  | ranDry (seen : Nat)
  | clean
deriving DecidableEq, Repr

def step (q : Queue) : Act → Option Queue
  | .write samples t => some (q.write samples t)
  | .pull device frames now => some (q.pull device frames now).1
  | .setDevice buffer period => some (q.setDevice buffer period)
  | .ranDry seen => some { q with late := Controls.ranDry q.late seen }
  | .clean => some { q with late := Controls.clean q.late }

end Queue

end Vento.Audio
