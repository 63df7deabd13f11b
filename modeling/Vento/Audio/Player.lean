import Mathlib.Data.List.Induction
import Vento.Audio.Stream
import Vento.Lib.Runs
/-!
# The far end's sound, played

`Player` of `media/audio/player.rs`, which every protocol in Rust plays its sound with: PCM or a codec's packets, on a
stream for each format, with the far end's own volume. A call is answered by the platform (a device for a new stream, a
decoder, what a packet decodes to), and that is any answer. Gains are of any type.

`sound_played`: no call panics, and what the streams were given is the far end's sound in its order, each stream of one
format. Nothing of it is missing but what the platform refused.
-/

namespace Vento.Audio

open Vento.Lib

def Format.new (rate channels : Nat) : Option Format :=
  if h : (8000 ≤ rate ∧ rate ≤ 384000) ∧ 1 ≤ channels ∧ channels ≤ 8 then some ⟨rate, channels, h.1, h.2⟩ else none

inductive Codec
  | aac
  | opus
deriving DecidableEq, Repr

/-- The two bytes of an `i16`. -/
abbrev Sample := UInt8 × UInt8

/-- What a stream is given at once: bytes that are cut anywhere, or samples. -/
inductive Chunk
  | bytes (bytes : List UInt8)
  | samples (samples : List Sample)
deriving DecidableEq, Repr

namespace Stream

def sampleBytes (samples : List Sample) : List UInt8 := samples.flatMap fun x => [x.1, x.2]

theorem length_sampleBytes (samples : List Sample) : (sampleBytes samples).length = samples.length * 2 := by
  induction samples with
  | nil => rfl
  | cons x samples ih =>
    rw [sampleBytes, List.flatMap_cons, List.length_append, List.length_cons]
    rw [sampleBytes] at ih
    rw [ih]
    simp only [List.length_cons, List.length_nil]
    omega

/-- `Stream::write`. The queue takes whole frames. -/
def write (s : Stream) (samples : List Sample) : Stream :=
  s.started.hand (sampleBytes (samples.take (samples.length / s.format.channels * s.format.channels)))

def give (s : Stream) : Chunk → Option Stream
  | .bytes bytes => s.writeBytes bytes
  | .samples samples => some (s.write samples)

/-! ## What a queue is handed -/

/-- The start of a frame whose end has not arrived. -/
def kept (s : Stream) : List UInt8 := s.part.take s.partLen

/-- Whether it is a write, by which a stream starts. -/
def starts : Chunk → Bool
  | .bytes bytes => bytes ≠ []
  | .samples _ => true

/-- All the bytes that were cut anywhere. -/
def bytesOf (chunks : List Chunk) : List UInt8 :=
  (chunks.filterMap fun c => match c with | .bytes bytes => some bytes | .samples _ => none).flatten

/-- The samples of a format, each in whole frames. -/
def framesOf (format : Format) (chunks : List Chunk) : List (List UInt8) :=
  chunks.filterMap fun c => match c with
    | .bytes _ => none
    | .samples samples => some (sampleBytes (samples.take (samples.length / format.channels * format.channels)))

theorem bytesOf_append (cs ds : List Chunk) : bytesOf (cs ++ ds) = bytesOf cs ++ bytesOf ds := by
  simp [bytesOf]

theorem framesOf_append (f : Format) (cs ds : List Chunk) : framesOf f (cs ++ ds) = framesOf f cs ++ framesOf f ds :=
  List.filterMap_append

/-- What the queue was handed is the samples' frames, each at once, and between them the frames of all the bytes: `writes` says
which is which. Less than a frame of the bytes is kept. -/
structure Divides (s : Stream) (chunks : List Chunk) : Prop where
  size : s.part.length = maxChannels * 2
  less : s.partLen < s.format.frameBytes
  playing : s.playing = chunks.any starts
  writes : ∃ writes : List (Bool × List UInt8), s.handed = writes.map Prod.snd ∧
    (∀ w ∈ writes, s.format.frameBytes ∣ w.2.length) ∧
    ((writes.filter fun w => w.1).map Prod.snd).flatten ++ s.kept = bytesOf chunks ∧
    (writes.filter fun w => !w.1).map Prod.snd = framesOf s.format chunks

theorem divides_new (f : Format) : Divides (new f) [] where
  size := by simp [new]
  less := frameBytes_pos f
  playing := rfl
  writes := ⟨[], rfl, List.forall_mem_nil _, rfl, rfl⟩

theorem finishPart_handed (s : Stream) (h : List (List UInt8)) (bytes : List UInt8) :
    finishPart { s with handed := h } bytes =
      (finishPart { s with handed := [] } bytes).map fun r => ({ r.1 with handed := h ++ r.1.handed }, r.2) := by
  unfold finishPart
  dsimp only
  split
  · simp
  · split
    · rfl
    · generalize copyFromSlice s.part s.partLen _ _ = part
      cases part with
      | none => rfl
      | some part =>
        simp only [Option.bind_eq_bind, Option.bind_some]
        split
        · simp
        · cases slice part 0 s.format.frameBytes <;> simp [hand]

theorem wholeFrames_handed (s : Stream) (h : List (List UInt8)) (bytes : List UInt8) :
    wholeFrames { s with handed := h } bytes =
      (wholeFrames { s with handed := [] } bytes).map fun t => { t with handed := h ++ t.handed } := by
  unfold wholeFrames
  dsimp only
  generalize copyFromSlice s.part 0 _ _ = part
  cases part <;> simp [hand]

/-- What a write does is nothing to what was handed on before. -/
theorem writeBytes_handed (s : Stream) (h : List (List UInt8)) (bytes : List UInt8) :
    writeBytes { s with handed := h } bytes =
      (writeBytes { s with handed := [] } bytes).map fun t => { t with handed := h ++ t.handed } := by
  unfold writeBytes
  split
  · simp
  · have hstart : ∀ h, started { s with handed := h } = { s.started with handed := h } := fun _ => rfl
    rw [hstart h, hstart [], finishPart_handed s.started h]
    cases finishPart { s.started with handed := [] } bytes with
    | none => rfl
    | some r =>
      obtain ⟨t, rest⟩ := r
      cases rest with
      | none => rfl
      | some rest =>
        simp only [Option.map_some, Option.bind_eq_bind, Option.bind_some]
        rw [wholeFrames_handed, show t = { t with handed := t.handed } from rfl, wholeFrames_handed t t.handed]
        cases wholeFrames { t with handed := [] } rest <;> simp

theorem finishPart_playing {s t : Stream} {bytes : List UInt8} {rest : Option (List UInt8)}
    (h : s.finishPart bytes = some (t, rest)) : t.playing = s.playing := by
  unfold finishPart at h
  dsimp only at h
  split at h
  · cases h
    rfl
  · split at h
    · cases h
    · obtain ⟨part, -, h⟩ := Option.bind_eq_some_iff.1 h
      split at h
      · cases h
        rfl
      · obtain ⟨whole, -, h⟩ := Option.bind_eq_some_iff.1 h
        cases h
        rfl

theorem wholeFrames_playing {s t : Stream} {bytes : List UInt8} (h : s.wholeFrames bytes = some t) : t.playing = s.playing := by
  obtain ⟨part, -, h⟩ := Option.bind_eq_some_iff.1 h
  cases h
  rfl

theorem writeBytes_playing {s t : Stream} {bytes : List UInt8} (h : s.writeBytes bytes = some t) :
    t.playing = (s.playing || starts (.bytes bytes)) := by
  unfold writeBytes at h
  split at h
  · next hempty =>
    cases h
    simp [starts, hempty]
  · next hne =>
    obtain ⟨⟨u, rest⟩, hfinish, h⟩ := Option.bind_eq_some_iff.1 h
    have hu : u.playing = true := finishPart_playing hfinish
    have ht : t.playing = u.playing := by
      cases rest with
      | none =>
        cases h
        rfl
      | some rest => exact wholeFrames_playing h
    simp [ht, hu, starts, hne]

namespace Divides

variable {s : Stream} {chunks : List Chunk}

theorem writeBytes (h : Divides s chunks) (bytes : List UInt8) :
    ∃ s', s.writeBytes bytes = some s' ∧ s'.format = s.format ∧ Divides s' (chunks ++ [.bytes bytes]) := by
  obtain ⟨writes, hhanded, hwhole, hbytes, hframes⟩ := h.writes
  have hcarries : Carries { s with handed := [] } s.kept := ⟨h.size, h.less, List.forall_mem_nil _, rfl⟩
  obtain ⟨t, ht, hformat, hdivided⟩ := writeBytes_carries hcarries bytes
  have hs : s.writeBytes bytes = some { t with handed := s.handed ++ t.handed } := by
    rw [show s = { s with handed := s.handed } from rfl, writeBytes_handed s s.handed, ht]
    rfl
  have hf : t.format = s.format := hformat
  refine ⟨_, hs, hf, hdivided.size, hdivided.less, ?_, writes ++ t.handed.map (true, ·), ?_, ?_, ?_, ?_⟩
  · rw [writeBytes_playing hs, h.playing]
    simp
  · simp [hhanded]
  · intro w hw
    rcases List.mem_append.1 hw with hw | hw
    · exact hf ▸ hwhole w hw
    · obtain ⟨b, hb, rfl⟩ := List.mem_map.1 hw
      exact hdivided.whole b hb
  · have hall := hdivided.bytes
    have htrue : (t.handed.map fun b => (true, b)).filter (fun w => w.1) = t.handed.map (true, ·) :=
      List.filter_eq_self.2 (by simp)
    rw [List.filter_append, htrue, List.map_append, List.flatten_append, List.map_map, bytesOf_append, ← hbytes, List.append_assoc,
      List.append_assoc]
    congr 1
    simpa [bytesOf, kept, Function.comp_def] using hall
  · have hfalse : (t.handed.map fun b => (true, b)).filter (fun w => !w.1) = [] := by simp
    rw [List.filter_append, hfalse, List.append_nil, framesOf_append, hframes, hf]
    simp [framesOf]

theorem write (h : Divides s chunks) (samples : List Sample) : Divides (s.write samples) (chunks ++ [.samples samples]) := by
  obtain ⟨writes, hhanded, hwhole, hbytes, hframes⟩ := h.writes
  generalize hframe : sampleBytes (samples.take (samples.length / s.format.channels * s.format.channels)) = frames
  have hwrite : s.write samples = s.started.hand frames := by rw [← hframe]; rfl
  rw [hwrite]
  refine ⟨h.size, h.less, ?_, writes ++ [(false, frames)], ?_, ?_, ?_, ?_⟩
  · simp [hand, started, starts]
  · simp [hand, started, hhanded]
  · intro w hw
    rcases List.mem_append.1 hw with hw | hw
    · exact hwhole w hw
    · have hdvd : s.format.channels ∣ (samples.take (samples.length / s.format.channels * s.format.channels)).length := by
        rw [List.length_take, Nat.min_eq_left (Nat.div_mul_le_self _ _)]
        exact Nat.dvd_mul_left _ _
      rw [List.mem_singleton.1 hw]
      dsimp only
      rw [← hframe, length_sampleBytes]
      exact Nat.mul_dvd_mul_right hdvd 2
  · rw [List.filter_append, bytesOf_append, ← hbytes]
    simp [bytesOf, kept, hand, started]
  · rw [List.filter_append, framesOf_append, List.map_append, hframes]
    simp [framesOf, ← hframe, hand, started]

theorem give (h : Divides s chunks) (chunk : Chunk) :
    ∃ s', s.give chunk = some s' ∧ s'.format = s.format ∧ Divides s' (chunks ++ [chunk]) := by
  cases chunk with
  | bytes bytes => exact h.writeBytes bytes
  | samples samples => exact ⟨_, rfl, rfl, h.write samples⟩

end Divides

end Stream

/-- A stream with its queue's gain. `given` is for the theorems: what it was given, and when that will have been heard. -/
structure Output (F : Type) where
  stream : Stream
  gain : F
  given : List (Chunk × Nat)

/-- The session's outputs and what its `Controls` were told: the codec, and the streams that play. `dropped` and `warned` are
for the theorems: the streams that were closed, in order, and what decoders were missed. -/
structure Outputs (F : Type) where
  codec : Option Codec
  streams : List Nat
  dropped : List (Output F)
  warned : List (Codec × Format)

/-- An open decoder, and the format and setup it was opened for. -/
structure Open where
  codec : Codec
  format : Format
  config : List UInt8
deriving DecidableEq

structure Player (F : Type) where
  outputs : Outputs F
  stream : Option (Output F)
  decoder : Option Open
  gain : F
  heardBy : Option Nat
  refused : Option (Codec × Format)

namespace Player

/-- What the platform answers in a call, where it is asked. -/
structure Answer where
  /-- A device starts to drain a new stream. -/
  device : Bool
  decoders : Bool
  decoder : Bool
  /-- What a packet decodes to, nothing as yet, or an error. -/
  decoded : Option (Option (Format × List Sample))
  now : Nat
  /-- The open stream's, after the call. -/
  latency : Nat

variable {F : Type} (one : F) (clamp : F → F)

def new : Player F := ⟨⟨none, [], [], []⟩, none, none, one, none, none⟩

/-- The number of the open stream, among all. -/
def number (p : Player F) : Nat := p.outputs.dropped.length

/-- The `Drop` of a stream. -/
def dropStream (p : Player F) : Player F :=
  match p.stream with
  | none => p
  | some o =>
    let streams := if o.stream.playing then p.outputs.streams.filter (· ≠ p.number) else p.outputs.streams
    { p with stream := none, outputs := { p.outputs with streams := streams, dropped := p.outputs.dropped ++ [o] } }

/-- The `Drop` of a decoder. -/
def dropDecoder (p : Player F) : Player F :=
  match p.decoder with
  | none => p
  | some _ => { p with decoder := none, outputs := { p.outputs with codec := none } }

/-- The stream for the format is open after it, or none where the platform has none. -/
def streamIn (format : Format) (a : Answer) (p : Player F) : Player F :=
  let p := if p.stream.any fun o => o.stream.format ≠ format then p.dropStream else p
  if p.stream.isNone && a.device then { p with stream := some ⟨Stream.new format, clamp p.gain, []⟩ } else p

/-- After a write to the open stream, which counts as playing from its first one. -/
def wrote (o : Output F) (stream : Stream) (chunk : Chunk) (a : Answer) (p : Player F) : Player F :=
  let heardBy := a.now + a.latency
  { p with
    stream := some { o with stream, given := o.given ++ [(chunk, heardBy)] }
    outputs := { p.outputs with
      streams := if stream.playing && !o.stream.playing then p.outputs.streams ++ [p.number] else p.outputs.streams }
    heardBy := some heardBy }

def write (chunk : Chunk) (a : Answer) (p : Player F) : Option (Player F) :=
  match p.stream with
  | none => some p
  | some o => (o.stream.give chunk).map fun stream => p.wrote o stream chunk a

def pcm (format : Format) (bytes : List UInt8) (a : Answer) (p : Player F) : Option (Player F) :=
  (p.dropDecoder.streamIn clamp format a).write (.bytes bytes) a

/-- The end of `packet`, with a decoder open. -/
def decode (a : Answer) (p : Player F) : Option (Player F) :=
  match a.decoded with
  | some (some (format, samples)) => (p.streamIn clamp format a).write (.samples samples) a
  | _ => some p

def refuse (codec : Codec) (format : Format) (p : Player F) : Player F :=
  { p with outputs := { p.outputs with warned := p.outputs.warned ++ [(codec, format)] }, refused := some (codec, format) }

/-- `Decoding::open`. -/
def decoding (decoder : Open) (p : Player F) : Player F :=
  { p with outputs := { p.outputs with codec := some decoder.codec }, refused := none, decoder := some decoder }

def packet (codec : Codec) (format : Format) (config : List UInt8) (a : Answer) (p : Player F) : Option (Player F) :=
  if p.decoder = some ⟨codec, format, config⟩ then p.decode clamp a
  else
    let p := p.dropDecoder
    if p.refused = some (codec, format) then some p
    else if a.decoders && a.decoder then (p.decoding ⟨codec, format, config⟩).decode clamp a
    else some (p.refuse codec format)

def setGain (gain : F) (p : Player F) : Player F :=
  { p with gain, stream := p.stream.map fun o => { o with gain := clamp gain } }

def close (p : Player F) : Player F := { p.dropStream.dropDecoder with heardBy := none }

def closeIfQuietAt (now after : Nat) (p : Player F) : Player F :=
  match p.heardBy with
  | some heardBy => if p.stream.isSome && heardBy + after ≤ now then p.close else p
  | none => p

/-- A protocol's calls. -/
inductive Act (F : Type)
  | pcm (format : Format) (bytes : List UInt8)
  | packet (codec : Codec) (format : Format) (config : List UInt8)
  | setGain (gain : F)
  | close
  | closeIfQuiet (after : Nat)

structure Call (F : Type) where
  act : Act F
  answer : Answer

def step (p : Player F) (c : Call F) : Option (Player F) :=
  match c.act with
  | .pcm format bytes => p.pcm clamp format bytes c.answer
  | .packet codec format config => p.packet clamp codec format config c.answer
  | .setGain gain => some (p.setGain clamp gain)
  | .close => some p.close
  | .closeIfQuiet after => some (p.closeIfQuietAt c.answer.now after)

/-! ## What is played -/

/-- What a packet decoded to, and when it will have been heard. -/
def Answer.sound (a : Answer) : Option (Format × Chunk × Nat) :=
  match a.decoded with
  | some (some (format, samples)) => some (format, .samples samples, a.now + a.latency)
  | _ => none

/-- The sound that a call brings. -/
def Call.sound (c : Call F) : Option (Format × Chunk × Nat) :=
  match c.act with
  | .pcm format bytes => some (format, .bytes bytes, c.answer.now + c.answer.latency)
  | .packet _ _ _ => c.answer.sound
  | _ => none

/-- The platform refuses nothing. -/
def Answer.Grants (a : Answer) : Prop := a.device = true ∧ a.decoders = true ∧ a.decoder = true

/-- The streams that there were, in order. -/
def all (p : Player F) : List (Output F) := p.outputs.dropped ++ p.stream.toList

/-- What they were given, each with its stream's format. -/
def played (p : Player F) : List (Format × Chunk × Nat) := p.all.flatMap fun o => o.given.map fun g => (o.stream.format, g)

/-- The gain that was last set. -/
def lastGain (cs : List (Call F)) : F := cs.foldl (fun g c => match c.act with | .setGain g' => g' | _ => g) one

/-- What every call keeps, with `g` the gain that was last set. -/
structure Kept (g : F) (p : Player F) : Prop where
  gain : p.gain = g
  level : ∀ o, p.stream = some o → o.gain = clamp g
  codec : p.outputs.codec = p.decoder.map Open.codec
  streams : p.outputs.streams = if p.stream.any fun o => o.stream.playing then [p.number] else []
  heard : ∀ o x, p.stream = some o → o.given.getLast? = some x → p.heardBy = some x.2
  divides : ∀ o ∈ p.all, o.stream.Divides (o.given.map Prod.fst)

section Keep

variable {one clamp} {g : F} {p : Player F}

theorem kept_new : Kept clamp one (new one) where
  gain := rfl
  level _ h := by cases h
  codec := rfl
  streams := rfl
  heard _ _ h := by cases h
  divides _ h := by cases h

theorem all_none (h : p.stream = none) : p.all = p.outputs.dropped := by rw [all, h, Option.toList_none, List.append_nil]

theorem all_some {o : Output F} (h : p.stream = some o) : p.all = p.outputs.dropped ++ [o] := by rw [all, h, Option.toList_some]

@[simp]
theorem dropStream_stream : p.dropStream.stream = none := by
  unfold dropStream
  split
  · assumption
  · rfl

/-- A stream that is dropped was one. -/
@[simp]
theorem dropStream_all : p.dropStream.all = p.all := by
  unfold dropStream
  split
  · rfl
  · next o ho => rw [all_none rfl, all_some ho]

@[simp]
theorem dropStream_refused : p.dropStream.refused = p.refused := by unfold dropStream; split <;> rfl

@[simp]
theorem dropDecoder_stream : p.dropDecoder.stream = p.stream := by unfold dropDecoder; split <;> rfl

@[simp]
theorem dropDecoder_all : p.dropDecoder.all = p.all := by unfold dropDecoder; split <;> rfl

@[simp]
theorem dropDecoder_refused : p.dropDecoder.refused = p.refused := by unfold dropDecoder; split <;> rfl

theorem Kept.dropStream (h : Kept clamp g p) : Kept clamp g p.dropStream := by
  have hdivides : ∀ o ∈ p.dropStream.all, o.stream.Divides (o.given.map Prod.fst) := dropStream_all (p := p) ▸ h.divides
  unfold Player.dropStream at hdivides ⊢
  split
  · exact h
  · next o ho =>
    rw [ho] at hdivides
    refine ⟨h.gain, fun _ hs => ?_, h.codec, ?_, fun _ _ hs => ?_, hdivides⟩
    · cases hs
    · have hstreams := h.streams
      rw [ho, Option.any_some] at hstreams
      dsimp only
      cases hplaying : o.stream.playing with
      | true =>
        rw [hplaying, if_pos rfl] at hstreams
        rw [hstreams, if_pos rfl]
        simp
      | false =>
        rw [hplaying, if_neg Bool.false_ne_true] at hstreams
        exact hstreams
    · cases hs

theorem Kept.dropDecoder (h : Kept clamp g p) : Kept clamp g p.dropDecoder := by
  unfold Player.dropDecoder
  split
  · exact h
  · exact ⟨h.gain, h.level, rfl, h.streams, h.heard, h.divides⟩

/-- The open stream is of the format, or the platform had none for it. -/
theorem streamIn_stream (format : Format) (a : Answer) :
    (∀ o, (p.streamIn clamp format a).stream = some o → o.stream.format = format) ∧
      (a.device = true → (p.streamIn clamp format a).stream ≠ none) := by
  unfold streamIn
  dsimp only
  generalize hq : (if p.stream.any fun o => o.stream.format ≠ format then p.dropStream else p) = q
  have hformat : ∀ o, q.stream = some o → o.stream.format = format := by
    intro o ho
    rw [← hq] at ho
    split at ho
    · simp at ho
    · next hsame => simpa [ho] using hsame
  split
  · refine ⟨fun o ho => ?_, fun _ => Option.some_ne_none _⟩
    cases ho
    rfl
  · next hopen =>
    refine ⟨hformat, fun hd hn => hopen ?_⟩
    rw [hn, hd]
    rfl

theorem streamIn_played (format : Format) (a : Answer) : (p.streamIn clamp format a).played = p.played := by
  unfold streamIn played
  dsimp only
  generalize hq : (if p.stream.any fun o => o.stream.format ≠ format then p.dropStream else p) = q
  have hall : q.all = p.all := by
    rw [← hq]
    split <;> simp
  rw [← hall]
  split
  · next hopen =>
    have hnone : q.stream = none := by
      rw [Bool.and_eq_true, Option.isNone_iff_eq_none] at hopen
      exact hopen.1
    rw [all_none hnone, all_some rfl, List.flatMap_append]
    simp
  · rfl

theorem streamIn_refused (format : Format) (a : Answer) : (p.streamIn clamp format a).refused = p.refused := by
  unfold streamIn
  dsimp only
  split <;> split <;> simp

theorem Kept.streamIn (h : Kept clamp g p) (format : Format) (a : Answer) : Kept clamp g (p.streamIn clamp format a) := by
  unfold Player.streamIn
  dsimp only
  generalize hq : (if p.stream.any fun o => o.stream.format ≠ format then p.dropStream else p) = q
  have hkept : Kept clamp g q := by
    rw [← hq]
    split
    · exact h.dropStream
    · exact h
  split
  · next hopen =>
    have hnone : q.stream = none := by
      rw [Bool.and_eq_true, Option.isNone_iff_eq_none] at hopen
      exact hopen.1
    have hstreams := hkept.streams
    rw [hnone] at hstreams
    refine ⟨hkept.gain, ?_, hkept.codec, hstreams, ?_, ?_⟩
    · intro o ho
      cases ho
      rw [← hkept.gain]
    · intro o x ho hx
      cases ho
      cases hx
    · intro o ho
      rw [all_some rfl, List.mem_append, List.mem_singleton] at ho
      rcases ho with ho | rfl
      · exact hkept.divides o (by rwa [all_none hnone])
      · exact Stream.divides_new format
  · exact hkept

/-- An open stream was given something. -/
def Begun (p : Player F) : Prop := ∀ o, p.stream = some o → o.given ≠ []

/-- What a call gives the streams, with what was refused before it. -/
structure Plays (sound : List (Format × Chunk × Nat)) (granted : Prop) (p p' : Player F) : Prop where
  some : ∃ x, p'.played = p.played ++ x ∧ x.Sublist sound
  every : granted → p.refused = none → p'.refused = none ∧ p'.played = p.played ++ sound

theorem Plays.nothing {granted : Prop} {p' : Player F} (hplayed : p'.played = p.played) (hrefused : p.refused = none → p'.refused = none) :
    Plays [] granted p p' :=
  ⟨⟨[], by rw [hplayed, List.append_nil], List.Sublist.refl _⟩, fun _ h => ⟨hrefused h, by rw [hplayed, List.append_nil]⟩⟩

theorem Kept.write (h : Kept clamp g p) (chunk : Chunk) (a : Answer) : ∃ p', p.write chunk a = some p' ∧ Kept clamp g p' ∧ Begun p' ∧
    p'.refused = p.refused ∧
    p'.played = p.played ++ p.stream.toList.map fun o => (o.stream.format, chunk, a.now + a.latency) := by
  cases ho : p.stream with
  | none =>
    refine ⟨p, by rw [Player.write, ho], h, fun o hs => ?_, rfl, by simp⟩
    rw [ho] at hs
    cases hs
  | some o =>
    have hmem : o ∈ p.all := by simp [all_some ho]
    obtain ⟨stream, hgive, hformat, hdivides⟩ := (h.divides o hmem).give chunk
    have hwrite : p.write chunk a = some (p.wrote o stream chunk a) := by
      rw [Player.write, ho]
      dsimp only
      rw [hgive, Option.map_some]
    refine ⟨_, hwrite, ⟨h.gain, ?_, h.codec, ?_, ?_, ?_⟩, ?_, rfl, ?_⟩
    · intro o' ho'
      cases ho'
      exact h.level o ho
    · have hstreams := h.streams
      have hplaying : stream.playing = (o.stream.playing || Stream.starts chunk) := by
        rw [hdivides.playing, (h.divides o hmem).playing, List.any_append, List.any_cons, List.any_nil, Bool.or_false]
      rw [ho, Option.any_some] at hstreams
      unfold wrote
      dsimp only
      rw [hstreams, Option.any_some, hplaying]
      cases o.stream.playing <;> cases Stream.starts chunk <;> rfl
    · intro o' x ho' hx
      cases ho'
      rw [List.getLast?_concat] at hx
      cases hx
      rfl
    · intro o' ho'
      rw [all_some rfl, List.mem_append, List.mem_singleton] at ho'
      rcases ho' with ho' | rfl
      · exact h.divides o' (by rw [all_some ho]; exact List.mem_append_left _ ho')
      · rw [List.map_append]
        exact hdivides
    · intro o' ho'
      cases ho'
      exact List.append_ne_nil_of_right_ne_nil _ (List.cons_ne_nil _ _)
    · unfold played
      rw [all_some rfl, all_some ho, List.flatMap_append, List.flatMap_append]
      simp [hformat, wrote]

/-- A chunk of a format, onto its stream. -/
theorem Kept.play (h : Kept clamp g p) (format : Format) (chunk : Chunk) (a : Answer) (granted : Prop) (hd : granted → a.device = true) :
    ∃ p', (p.streamIn clamp format a).write chunk a = some p' ∧ Kept clamp g p' ∧ Begun p' ∧
      Plays [(format, chunk, a.now + a.latency)] granted p p' := by
  obtain ⟨p', hp', hkept, hbegun, hrefused, hplayed⟩ := (h.streamIn format a).write chunk a
  have hformat : ∀ o, (p.streamIn clamp format a).stream = some o → o.stream.format = format := (streamIn_stream format a).1
  have hopen : a.device = true → (p.streamIn clamp format a).stream ≠ none := (streamIn_stream format a).2
  rw [streamIn_played] at hplayed
  rw [streamIn_refused] at hrefused
  refine ⟨p', hp', hkept, hbegun, ?_⟩
  cases ho : (p.streamIn clamp format a).stream with
  | none =>
    rw [ho] at hplayed
    exact ⟨⟨[], hplayed, List.nil_sublist _⟩, fun hg _ => absurd ho (hopen (hd hg))⟩
  | some o =>
    rw [ho, Option.toList_some, List.map_singleton, hformat o ho] at hplayed
    exact ⟨⟨_, hplayed, List.Sublist.refl _⟩, fun _ hr => ⟨hrefused.trans hr, hplayed⟩⟩

theorem Kept.decode (h : Kept clamp g p) (hb : Begun p) (a : Answer) (granted : Prop) (hd : granted → a.device = true) :
    ∃ p', p.decode clamp a = some p' ∧ Kept clamp g p' ∧ Begun p' ∧ Plays a.sound.toList granted p p' := by
  unfold Player.decode Answer.sound
  rcases a.decoded with _ | _ | ⟨format, samples⟩
  · exact ⟨p, rfl, h, hb, .nothing rfl id⟩
  · exact ⟨p, rfl, h, hb, .nothing rfl id⟩
  · exact h.play format (.samples samples) a granted hd

theorem Kept.packet (h : Kept clamp g p) (hb : Begun p) (codec : Codec) (format : Format) (config : List UInt8) (a : Answer) :
    ∃ p', p.packet clamp codec format config a = some p' ∧ Kept clamp g p' ∧ Begun p' ∧
      Plays a.sound.toList a.Grants p p' := by
  unfold Player.packet
  dsimp only
  split
  · exact h.decode hb a _ And.left
  · have hdropped := h.dropDecoder
    have hbdropped : Begun p.dropDecoder := fun o ho => hb o (by rwa [dropDecoder_stream] at ho)
    have hplayed : p.dropDecoder.played = p.played := by rw [played, dropDecoder_all, played]
    split
    · next hrefused =>
      refine ⟨_, rfl, hdropped, hbdropped, ⟨[], by rw [hplayed, List.append_nil], List.nil_sublist _⟩, fun _ hnone => ?_⟩
      rw [dropDecoder_refused, hnone] at hrefused
      cases hrefused
    · split
      · have hkept : Kept clamp g (p.dropDecoder.decoding ⟨codec, format, config⟩) :=
          ⟨hdropped.gain, hdropped.level, rfl, hdropped.streams, hdropped.heard, hdropped.divides⟩
        have hsame : (p.dropDecoder.decoding ⟨codec, format, config⟩).played = p.played := hplayed
        obtain ⟨p', hp', hk', hb', hplays⟩ := hkept.decode hbdropped a _ And.left
        refine ⟨p', hp', hk', hb', ?_, fun hg _ => ?_⟩
        · rw [← hsame]
          exact hplays.some
        · rw [← hsame]
          exact hplays.every hg rfl
      · next hno =>
        refine ⟨_, rfl, ⟨hdropped.gain, hdropped.level, hdropped.codec, hdropped.streams, hdropped.heard, hdropped.divides⟩, hbdropped,
          ⟨[], by rw [List.append_nil]; exact hplayed, List.nil_sublist _⟩, fun hg _ => absurd ?_ hno⟩
        rw [hg.2.1, hg.2.2]
        rfl

theorem close_stream : p.close.stream = none := dropDecoder_stream.trans dropStream_stream

theorem Kept.close (h : Kept clamp g p) : Kept clamp g p.close := by
  have hdropped := h.dropStream.dropDecoder
  refine ⟨hdropped.gain, hdropped.level, hdropped.codec, hdropped.streams, fun o x ho _ => ?_, hdropped.divides⟩
  rw [close_stream] at ho
  cases ho

theorem close_played : p.close.played = p.played := by
  have hall : p.close.all = p.all := dropDecoder_all.trans dropStream_all
  rw [played, hall, played]

theorem close_refused : p.close.refused = p.refused := dropDecoder_refused.trans dropStream_refused

theorem Kept.setGain (h : Kept clamp g p) (gain : F) : Kept clamp gain (p.setGain clamp gain) := by
  have hstream : ∀ o, (p.setGain clamp gain).stream = some o → ∃ o', p.stream = some o' ∧ o = { o' with gain := clamp gain } := by
    intro o ho
    obtain ⟨o', ho', rfl⟩ := Option.map_eq_some_iff.1 ho
    exact ⟨o', ho', rfl⟩
  refine ⟨rfl, ?_, h.codec, ?_, ?_, ?_⟩
  · intro o ho
    obtain ⟨o', -, rfl⟩ := hstream o ho
    rfl
  · refine h.streams.trans ?_
    unfold Player.setGain
    cases p.stream <;> rfl
  · intro o x ho hx
    obtain ⟨o', ho', rfl⟩ := hstream o ho
    exact h.heard o' x ho' hx
  · intro o ho
    cases hs : p.stream with
    | none =>
      have hnone : (p.setGain clamp gain).stream = none := by rw [Player.setGain, hs, Option.map_none]
      rw [all_none hnone] at ho
      exact h.divides o (by rw [all_none hs]; exact ho)
    | some o' =>
      have hsome : (p.setGain clamp gain).stream = some { o' with gain := clamp gain } := by rw [Player.setGain, hs, Option.map_some]
      rw [all_some hsome, List.mem_append, List.mem_singleton] at ho
      rcases ho with ho | rfl
      · exact h.divides o (by rw [all_some hs]; exact List.mem_append_left _ ho)
      · exact h.divides o' (by rw [all_some hs]; exact List.mem_append_right _ (List.mem_singleton_self _))

theorem setGain_played (gain : F) : (p.setGain clamp gain).played = p.played := by
  unfold played all Player.setGain
  cases p.stream <;> simp

/-- All that the open stream was given has been heard, and `after` has gone by. -/
def Quiet (p : Player F) (now after : Nat) : Prop := ∃ o x, p.stream = some o ∧ o.given.getLast? = some x ∧ x.2 + after ≤ now

theorem closeIfQuietAt_cases (h : Kept clamp g p) (hb : Begun p) (now after : Nat) :
    (p.Quiet now after ∧ p.closeIfQuietAt now after = p.close) ∨ (¬p.Quiet now after ∧ p.closeIfQuietAt now after = p) := by
  unfold closeIfQuietAt Quiet
  cases hs : p.stream with
  | none =>
    refine .inr ⟨?_, ?_⟩
    · rintro ⟨o, x, ho, -⟩
      cases ho
    · split <;> simp
  | some o =>
    obtain ⟨x, hx⟩ : ∃ x, o.given.getLast? = some x := Option.isSome_iff_exists.1 (by simp [hb o hs])
    rw [h.heard o x hs hx]
    by_cases hlate : x.2 + after ≤ now
    · exact .inl ⟨⟨o, x, rfl, hx, hlate⟩, by simp [hlate]⟩
    · refine .inr ⟨?_, by simp [hlate]⟩
      rintro ⟨o', x', ho', hx', hlate'⟩
      cases ho'
      cases hx.symm.trans hx'
      exact hlate hlate'

theorem Kept.closeIfQuietAt (h : Kept clamp g p) (now after : Nat) : Kept clamp g (p.closeIfQuietAt now after) := by
  unfold Player.closeIfQuietAt
  split
  · split
    · exact h.close
    · exact h
  · exact h

/-- What a call does to all of it. -/
theorem Kept.step (h : Kept clamp g p) (hb : Begun p) (c : Call F) : ∃ p', p.step clamp c = some p' ∧
    Kept clamp (match c.act with | .setGain g' => g' | _ => g) p' ∧ Begun p' ∧ Plays c.sound.toList c.answer.Grants p p' := by
  have hclosed : Begun p.close := fun o ho => by rw [close_stream] at ho; cases ho
  obtain ⟨act, a⟩ := c
  cases act with
  | pcm format bytes =>
    obtain ⟨p', hp', hk', hb', hplays⟩ := h.dropDecoder.play format (.bytes bytes) a a.Grants And.left
    have hplayed : p.dropDecoder.played = p.played := by rw [played, dropDecoder_all, played]
    refine ⟨p', hp', hk', hb', ?_, fun hg hr => ?_⟩
    · rw [← hplayed]
      exact hplays.some
    · rw [← hplayed]
      exact hplays.every hg (dropDecoder_refused.trans hr)
  | packet codec format config => exact h.packet hb codec format config a
  | setGain gain =>
    refine ⟨_, rfl, h.setGain gain, fun o ho => ?_, .nothing (setGain_played gain) id⟩
    obtain ⟨o', ho', rfl⟩ := Option.map_eq_some_iff.1 ho
    exact hb o' ho'
  | close => exact ⟨_, rfl, h.close, hclosed, .nothing close_played close_refused.trans⟩
  | closeIfQuiet after =>
    refine ⟨_, rfl, h.closeIfQuietAt _ _, ?_⟩
    rcases closeIfQuietAt_cases h hb a.now after with ⟨-, heq⟩ | ⟨-, heq⟩
    · rw [heq]
      exact ⟨hclosed, .nothing close_played close_refused.trans⟩
    · rw [heq]
      exact ⟨hb, .nothing rfl id⟩

end Keep

/-- What holds after every run. -/
theorem run_kept (cs : List (Call F)) : ∃ p, run (step clamp) (new one) cs = some p ∧ Kept clamp (lastGain one cs) p ∧ Begun p ∧
    p.played.Sublist (cs.filterMap Call.sound) ∧
    ((∀ c ∈ cs, c.answer.Grants) → p.refused = none ∧ p.played = cs.filterMap Call.sound) := by
  induction cs using List.reverseRecOn with
  | nil =>
    have hbegun : Begun (new one) := fun o ho => by cases ho
    exact ⟨_, rfl, kept_new, hbegun, List.Sublist.refl _, fun _ => ⟨rfl, rfl⟩⟩
  | append_singleton cs c ih =>
    obtain ⟨p, hp, hk, hb, hsome, hevery⟩ := ih
    obtain ⟨p', hp', hk', hb', ⟨x, hx, hsub⟩, hplays⟩ := hk.step hb c
    have hsound : (cs ++ [c]).filterMap Call.sound = cs.filterMap Call.sound ++ c.sound.toList := by
      rw [List.filterMap_append]
      cases hc : c.sound <;> simp [hc]
    refine ⟨p', run_snoc hp hp', ?_, hb', ?_, fun hg => ?_⟩
    · rw [lastGain, List.foldl_append]
      exact hk'
    · rw [hx, hsound]
      exact hsome.append hsub
    · obtain ⟨hnone, hplayed⟩ := hevery fun c' hc' => hg c' (List.mem_append_left _ hc')
      obtain ⟨hnone', hplayed'⟩ := hplays (hg c (List.mem_append_right _ (List.mem_singleton_self c))) hnone
      exact ⟨hnone', by rw [hplayed', hplayed, hsound]⟩

/-- Whatever a protocol calls and the platform answers: no call panics, the streams were given sound that was brought, in its
order, each of its own format, and all of it where the platform refuses nothing; and what they were given is what their queues
were handed, but for less than a frame. -/
theorem sound_played (cs : List (Call F)) : ∃ p, run (step clamp) (new one) cs = some p ∧
    p.played.Sublist (cs.filterMap Call.sound) ∧ ((∀ c ∈ cs, c.answer.Grants) → p.played = cs.filterMap Call.sound) ∧
    ∀ o ∈ p.all, o.stream.Divides (o.given.map Prod.fst) := by
  obtain ⟨p, hp, hk, -, hsome, hevery⟩ := run_kept one clamp cs
  exact ⟨p, hp, hsome, fun hg => (hevery hg).2, hk.divides⟩

/-- After every run the open stream plays at the gain that was last set, whenever it was opened; the controls know the codec of
the open decoder, and that a stream plays from what first starts it until it is closed; and that is with all it was given heard,
unless it is closed for another or by the protocol. -/
theorem controls_told (cs : List (Call F)) : ∃ p, run (step clamp) (new one) cs = some p ∧
    (∀ o, p.stream = some o → o.gain = clamp (lastGain one cs)) ∧ p.outputs.codec = p.decoder.map Open.codec ∧
    p.outputs.streams = (if p.stream.any fun o => (o.given.map Prod.fst).any Stream.starts then [p.number] else []) ∧
    ∀ now after, (p.Quiet now after → p.closeIfQuietAt now after = p.close) ∧
      (¬p.Quiet now after → p.closeIfQuietAt now after = p) := by
  obtain ⟨p, hp, hk, hb, -, -⟩ := run_kept one clamp cs
  refine ⟨p, hp, hk.level, hk.codec, ?_, fun now after => ?_⟩
  · rw [hk.streams]
    cases ho : p.stream with
    | none => rfl
    | some o =>
      have hplaying := (hk.divides o (by simp [all_some ho])).playing
      rw [Option.any_some, Option.any_some, hplaying]
  · rcases closeIfQuietAt_cases hk hb now after with ⟨hq, heq⟩ | ⟨hq, heq⟩
    · exact ⟨fun _ => heq, fun hn => absurd hq hn⟩
    · exact ⟨fun hq' => absurd hq' hq, fun _ => heq⟩

end Player

end Vento.Audio
