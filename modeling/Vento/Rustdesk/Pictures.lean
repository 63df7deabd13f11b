import Vento.Lib.Runs
import Vento.Rustdesk.Framebuffer
/-!
# The latest picture

`Client::picture`: an update of any number of frames, each of which the decoder converts, leaves on
the GPU or makes nothing of.

What a decoder does is an assumption: it converts the rows it marks and those marked already, and marks
what differs from its previous picture (`Faithful`). `latest_shown`: then what is read after an update
is its last picture, and what that changed is inside the damage, as long as no update ends with a
picture of another size than the desktop's that stayed on the GPU and could not be read.
-/

namespace Vento.Rustdesk.Display

open Vento.Lib
open Vento.Video (Changes)

inductive Codec where
  | vp8 | vp9 | av1 | h264 | h265
deriving DecidableEq, Repr

inductive Hardware where
  | off | on | auto
deriving DecidableEq, Repr

/-- The decoder in use, and its previous picture. -/
structure Current where
  codec : Codec
  size : Nat × Nat
  hardware : Hardware
  previous : Option Picture

structure Client where
  width : Int
  height : Int
  framebuffer : Framebuffer
  back : Back
  decoder : Option Current
  /-- What `damaged` was called with. -/
  damaged : List (Nat × Nat × Nat × Nat)

/-- What a decoder makes of a frame. -/
inductive Outcome where
  | nothing
  /-- Converted, with the rows and columns that it marks. -/
  | converted (picture : Picture) (marks : List (Nat × Nat × Nat))
  /-- Left on the GPU; `read` is whether it could be read, where that is asked for. -/
  | gpu (picture : Picture) (read : Bool)

namespace Outcome

def picture? : Outcome → Option Picture
  | .nothing => none
  | .converted picture _ => some picture
  | .gpu picture _ => some picture

end Outcome

/-- What the frames of an update have come to. -/
structure Update where
  pixels : Buffer UInt32
  changed : Changes
  drew : Bool
  held : Option Picture
  previous : Option Picture

inductive Act where
  | arrived (width height : Int)
  | switched (width height : Int)
  /-- An update; `made` is whether there is a decoder for it, should a new one be needed. -/
  | picture (codec : Codec) (hardware : Hardware) (made : Bool) (outcomes : List Outcome)
  | catchUp (ok : Bool)

def markAll (changed : Changes) (marks : List (Nat × Nat × Nat)) : Changes :=
  marks.foldl (fun c m => c.mark m.1 m.2.1 m.2.2) changed

/-- One frame. `tracks` is whether the decoder's previous picture may be one that it left on the GPU, or
is the last that it converted. -/
def decoded (tracks : Bool) (w h : Nat) (u : Update) : Outcome → Update
  | .nothing => u
  | .converted picture marks =>
    let changed := markAll u.changed marks
    { pixels := picture.write u.pixels w h changed.row, changed, drew := true, held := none, previous := some picture }
  | .gpu picture read =>
    let u := { u with changed := u.changed.all w h, previous := if tracks then some picture else u.previous }
    if (picture.width, picture.height) = (w, h) then { u with held := some picture }
    else if read then { u with pixels := picture.write u.pixels w h fun _ => true, drew := true, held := none }
    else u

namespace Client

def start : Client := ⟨0, 0, Framebuffer.new, Back.new, none, []⟩

def resize (s : Client) (width height : Int) : Client :=
  { s with
    framebuffer := s.framebuffer.resize width.toNat height.toNat
    back := s.back.resize width.toNat height.toNat }

def arrived (s : Client) (width height : Int) : Client := { s.resize width height with width, height }

def switched (s : Client) (width height : Int) : Client :=
  if width ≤ 0 ∨ height ≤ 0 then s
  else if s.width = width ∧ s.height = height then s
  else ({ s with width, height } : Client).resize width height

/-- The decoder for an update: the one in use if it was made for this, else a new one. -/
def decoderFor (s : Client) (codec : Codec) (w h : Nat) (hardware : Hardware) (made : Bool) : Option Current :=
  let fresh := if made then some ⟨codec, (w, h), hardware, none⟩ else none
  match s.decoder with
  | some c => if c.codec = codec ∧ c.size = (w, h) ∧ c.hardware = hardware then some c else fresh
  | none => fresh

/-- What an update starts from; `none` if it gets no further. -/
def begins (s : Client) (codec : Codec) (hardware : Hardware) (made : Bool) : Option (Current × Update) :=
  let w := s.width.toNat
  let h := s.height.toNat
  if w = 0 ∨ h = 0 ∨ s.back.pixels.len ≠ w * h then none
  else
    (s.decoderFor codec w h hardware made).map fun c =>
      (c, ⟨s.back.pixels, (s.back.begin w h).changed, false, none, c.previous⟩)

/-- The decoder and the buffer behind, after the frames. -/
def took (s : Client) (current : Current) (u : Update) : Client :=
  { s with
    decoder := some { current with previous := u.previous }
    back := { s.back with pixels := u.pixels, changed := u.changed } }

/-- What the frames came to, put on screen. -/
def present (s : Client) (w h : Nat) (u : Update) : Client :=
  match u.held with
  | some picture =>
    match s.framebuffer.showGpu picture with
    | none => { s with back := s.back.lost }
    | some framebuffer => { s with framebuffer, back := s.back.lost, damaged := s.damaged ++ [(0, 0, w, h)] }
  | none =>
    if !u.drew then s
    else
      match s.back.changed.bounds w with
      | none => s
      | some rect =>
        match s.back.carry s.framebuffer with
        | (false, back) => { s with back }
        | (true, back) =>
          match s.framebuffer.swap back.pixels with
          | none => { s with back := back.lost }
          | some (framebuffer, pixels) =>
            { s with framebuffer, back := ({ back with pixels } : Back).swapped, damaged := s.damaged ++ [rect] }

def picture (tracks : Bool) (s : Client) (codec : Codec) (hardware : Hardware) (made : Bool)
    (outcomes : List Outcome) : Client :=
  let w := s.width.toNat
  let h := s.height.toNat
  if w = 0 ∨ h = 0 ∨ s.back.pixels.len ≠ w * h then s
  else
    match s.begins codec hardware made with
    | none => { s with decoder := none }
    | some (current, u) =>
      let u := outcomes.foldl (decoded tracks w h) u
      (s.took current u).present w h u

def step (tracks : Bool) (s : Client) : Act → Option Client
  | .arrived width height => some (s.arrived width height)
  | .switched width height => some (s.switched width height)
  | .picture codec hardware made outcomes => some (s.picture tracks codec hardware made outcomes)
  | .catchUp ok => some { s with framebuffer := s.framebuffer.catchUp ok }

end Client

/-! ## What is assumed, and what is promised -/

/-- The last frame of an update that made a picture. -/
def lastOutcome (outcomes : List Outcome) : Option Outcome :=
  outcomes.foldl (fun last o => if o.picture?.isSome then some o else last) none

def lastPicture (outcomes : List Outcome) : Option Picture := (lastOutcome outcomes).bind Outcome.picture?

/-- A decoder writes all of a row that it converts, and marks each pixel that differs from its previous
picture, or has none there. -/
def Faithful (w h : Nat) (u : Update) : Outcome → Prop
  | .converted picture marks =>
    w ≤ picture.width ∧ h ≤ picture.height ∧
      ∀ r < h, ∀ c < w, (u.previous.bind fun p => p.pixel? r c) ≠ picture.pixel? r c →
        (markAll u.changed marks).Covers r c
  | _ => True

def Decodes (tracks : Bool) (s : Client) : Act → Prop
  | .picture codec hardware made outcomes =>
    ∀ cu ∈ s.begins codec hardware made,
      Meets (fun u o => some (decoded tracks s.width.toNat s.height.toNat u o))
        (Faithful s.width.toNat s.height.toNat) cu.2 outcomes
  | _ => True

/-- Not a picture of another size that was left on the GPU, unless it is read and the decoder's next one is
compared with it. -/
def Outcome.ends (tracks : Bool) (w h : Nat) : Outcome → Bool
  | .gpu picture read => (picture.width, picture.height) = (w, h) || (read && tracks)
  | _ => true

/-- An update ends with a picture that the next one can rest on. -/
def EndsWell (tracks : Bool) (s : Client) : Act → Prop
  | .picture _ _ _ outcomes => (lastOutcome outcomes).all (Outcome.ends tracks s.width.toNat s.height.toNat) = true
  | _ => True

instance (changed : Changes) (r c : Nat) : Decidable (changed.Covers r c) :=
  match htop : changed.top, hleft : changed.left with
  | some top, some left =>
    decidable_of_iff (changed.row r = true ∧ top ≤ r ∧ r ≤ changed.bottom ∧ left * Video.columnGrain ≤ c ∧
      c < (changed.right + 1) * Video.columnGrain)
      ⟨fun hin => ⟨hin.1, top, left, htop, hleft, hin.2⟩, fun hcov => by
        obtain ⟨hrow, top', left', htop', hleft', hin⟩ := hcov
        cases htop.symm.trans htop'
        cases hleft.symm.trans hleft'
        exact ⟨hrow, hin⟩⟩
  | none, _ => isFalse fun hcov => by
    obtain ⟨-, top', left', htop', -⟩ := hcov
    cases htop.symm.trans htop'
  | some _, none => isFalse fun hcov => by
    obtain ⟨-, top', left', -, hleft', -⟩ := hcov
    cases hleft.symm.trans hleft'

instance (w h : Nat) (u : Update) : DecidablePred (Faithful w h u)
  | .nothing => isTrue trivial
  | .converted _ _ => inferInstanceAs (Decidable (_ ∧ _ ∧ ∀ r < h, ∀ c < w, _ → _))
  | .gpu _ _ => isTrue trivial

instance (tracks : Bool) (s : Client) : DecidablePred (Decodes tracks s)
  | .picture codec hardware made _ => inferInstanceAs (Decidable (∀ cu ∈ s.begins codec hardware made, _))
  | .arrived _ _ | .switched _ _ | .catchUp _ => isTrue trivial

instance (tracks : Bool) (s : Client) : DecidablePred (EndsWell tracks s)
  | .picture _ _ _ _ => inferInstanceAs (Decidable (_ = true))
  | .arrived _ _ | .switched _ _ | .catchUp _ => isTrue trivial

/-- After an update: what is read is the last picture of it, and what was on screen before differs from
that only inside what the update reports. -/
structure Shows (codec : Codec) (hardware : Hardware) (made : Bool) (outcomes : List Outcome) (s s' : Client) :
    Prop where
  latest : (s.begins codec hardware made).isSome → ∀ p, lastPicture outcomes = some p →
    ∀ r < s'.framebuffer.height, ∀ c < s'.framebuffer.width, ∀ v, p.pixel? r c = some v →
      s'.framebuffer.shown r c = v
  damage : ∀ r < s'.framebuffer.height, ∀ c < s'.framebuffer.width,
    s'.framebuffer.shown r c ≠ s.framebuffer.shown r c →
      ∃ x y w h, s'.damaged = s.damaged ++ [(x, y, w, h)] ∧ x ≤ c ∧ c < x + w ∧ y ≤ r ∧ r < y + h

/-! ## The frames of an update -/

theorem lastOutcome_snoc (outcomes : List Outcome) (o : Outcome) :
    lastOutcome (outcomes ++ [o]) = if o.picture?.isSome then some o else lastOutcome outcomes := by
  simp [lastOutcome]

theorem isSome_of_lastOutcome {outcomes : List Outcome} {o : Outcome} (h : lastOutcome outcomes = some o) :
    o.picture?.isSome = true := by
  have go : ∀ (outcomes : List Outcome) (last : Option Outcome),
      outcomes.foldl (fun last o => if o.picture?.isSome then some o else last) last = some o →
        last = some o ∨ o.picture?.isSome = true := by
    intro outcomes
    induction outcomes with
    | nil => intro last hl; exact Or.inl hl
    | cons a outcomes ih =>
      intro last hl
      rcases ih _ hl with heq | hsome
      · dsimp only at heq
        split at heq
        · rename_i ha
          cases heq
          exact Or.inr ha
        · exact Or.inl heq
      · exact Or.inr hsome
  rcases go outcomes none h with hnone | hsome
  · cases hnone
  · exact hsome

theorem markAll_grows (changed : Changes) (marks : List (Nat × Nat × Nat)) :
    changed.Grows (markAll changed marks) := by
  induction marks generalizing changed with
  | nil => exact Changes.Grows.refl changed
  | cons m marks ih => exact (Changes.mark_grows changed m.1 m.2.1 m.2.2).trans (ih _)

theorem markAll_row {changed : Changes} {r : Nat} (h : changed.row r = true) (marks : List (Nat × Nat × Nat)) :
    (markAll changed marks).row r = true := by
  induction marks generalizing changed with
  | nil => exact h
  | cons m marks ih =>
    refine ih ?_
    rw [Changes.row_mark]
    split
    · rfl
    · exact h

/-- What the frames so far have left: in the rows that are not marked, what was there; where nothing is
marked, the decoder's previous picture is what is on screen (`front`); and of the last picture, where it
is to be had. -/
structure Loop (tracks : Bool) (w h : Nat) (front : Nat → Nat → UInt32) (before : Update) (done : List Outcome)
    (u : Update) : Prop where
  len : u.pixels.len = before.pixels.len
  grows : ∀ r < h, ∀ c < w, before.changed.Covers r c → u.changed.Covers r c
  kept : ∀ r < h, u.changed.row r = false → ∀ c < w, u.pixels.get (r * w + c) = before.pixels.get (r * w + c)
  agrees : ∀ r < h, ∀ c < w, ¬u.changed.Covers r c →
    ∀ v, (u.previous.bind fun p => p.pixel? r c) = some v → front r c = v
  size : ∀ p, u.held = some p → (p.width, p.height) = (w, h)
  none_ : lastOutcome done = none →
    u.pixels = before.pixels ∧ u.previous = before.previous ∧ u.held = none ∧ u.drew = false
  converted : ∀ p marks, lastOutcome done = some (.converted p marks) →
    u.held = none ∧ u.drew = true ∧ u.previous = some p ∧ (w ≤ p.width ∧ h ≤ p.height) ∧
      ∀ r < h, u.changed.row r = true → ∀ c < w, u.pixels.get (r * w + c) = p.pixel r c
  right : ∀ p read, lastOutcome done = some (.gpu p read) → (p.width, p.height) = (w, h) → u.held = some p
  other : ∀ p, lastOutcome done = some (.gpu p true) → (p.width, p.height) ≠ (w, h) →
    u.held = none ∧ u.drew = true ∧ (tracks = true → u.previous = some p) ∧
      (∀ r < h, ∀ c < w, u.changed.Covers r c) ∧
      ∀ r < h, ∀ c < w, ∀ v, p.pixel? r c = some v → u.pixels.get (r * w + c) = v

theorem pixel?_of_le {p : Picture} {w h r c : Nat} (hw : w ≤ p.width) (hh : h ≤ p.height) (hr : r < h) (hc : c < w) :
    p.pixel? r c = some (p.pixel r c) := if_pos ⟨by omega, by omega⟩

variable {tracks : Bool} {w h : Nat} {front : Nat → Nat → UInt32} {before u : Update} {done : List Outcome}

theorem Loop.converted_step (hl : Loop tracks w h front before done u) {p : Picture} {marks : List (Nat × Nat × Nat)}
    (hf : Faithful w h u (.converted p marks)) :
    Loop tracks w h front before (done ++ [.converted p marks]) (decoded tracks w h u (.converted p marks)) := by
  obtain ⟨hpw, hph, hmarks⟩ := hf
  have hlast : lastOutcome (done ++ [.converted p marks]) = some (.converted p marks) := lastOutcome_snoc done _
  have hrow : ∀ r, (markAll u.changed marks).row r = false → u.changed.row r = false := by
    intro r hr
    cases h' : u.changed.row r with
    | false => rfl
    | true =>
      rw [markAll_row h' marks] at hr
      cases hr
  refine ⟨?_, ?_, ?_, ?_, nofun, ?_, ?_, ?_, ?_⟩
  · show (p.write u.pixels w h _).len = _
    rw [Picture.write_len]
    exact hl.len
  · intro r hr c hc hcov
    exact (markAll_grows u.changed marks).covers r c (hl.grows r hr c hc hcov)
  · intro r hr hun c hc
    show (p.write u.pixels w h (markAll u.changed marks).row).get _ = _
    have hun' : (markAll u.changed marks).row r = false := hun
    rw [Picture.write_get p _ _ hr hc, hun', if_neg nofun]
    exact hl.kept r hr (hrow r hun') c hc
  · intro r hr c hc hun v hv
    have hv' : p.pixel? r c = some v := hv
    have hsame : (u.previous.bind fun q => q.pixel? r c) = p.pixel? r c := by
      by_contra hne
      exact hun (hmarks r hr c hc hne)
    exact hl.agrees r hr c hc (fun hcov => hun ((markAll_grows u.changed marks).covers r c hcov)) v (hsame.trans hv')
  · rw [hlast]
    nofun
  · intro q marks' heq
    rw [hlast] at heq
    cases heq
    refine ⟨rfl, rfl, rfl, ⟨hpw, hph⟩, ?_⟩
    intro r hr hmark c hc
    show (p.write u.pixels w h (markAll u.changed marks).row).get _ = _
    have hmark' : (markAll u.changed marks).row r = true := hmark
    rw [Picture.write_get p _ _ hr hc, if_pos hmark', pixel?_of_le hpw hph hr hc]
    rfl
  · intro q read heq
    rw [hlast] at heq
    cases heq
  · intro q heq
    rw [hlast] at heq
    cases heq

theorem Loop.gpu_step (hl : Loop tracks w h front before done u) (p : Picture) (read : Bool) :
    Loop tracks w h front before (done ++ [.gpu p read]) (decoded tracks w h u (.gpu p read)) := by
  have hlast : lastOutcome (done ++ [.gpu p read]) = some (.gpu p read) := lastOutcome_snoc done _
  have hall : ∀ r < h, ∀ c < w, (u.changed.all w h).Covers r c := fun r hr c hc => Changes.all_covers hr hc
  -- all of it is marked, so nothing is claimed of what is not
  have kept : ∀ {v : Update}, v.changed = u.changed.all w h → ∀ r < h, v.changed.row r = false → ∀ c < w,
      v.pixels.get (r * w + c) = before.pixels.get (r * w + c) := by
    intro v hv r hr hun c hc
    rw [hv, (hall r hr c hc).moved] at hun
    cases hun
  have agrees : ∀ {v : Update}, v.changed = u.changed.all w h → ∀ r < h, ∀ c < w, ¬v.changed.Covers r c →
      ∀ x, (v.previous.bind fun p => p.pixel? r c) = some x → front r c = x := by
    intro v hv r hr c hc hun
    rw [hv] at hun
    exact absurd (hall r hr c hc) hun
  by_cases hsize : (p.width, p.height) = (w, h)
  · have hd : decoded tracks w h u (.gpu p read) = { u with
        changed := u.changed.all w h
        previous := if tracks then some p else u.previous
        held := some p } := if_pos hsize
    rw [hd]
    refine ⟨hl.len, fun r hr c hc _ => hall r hr c hc, kept rfl, agrees rfl, ?_, ?_, ?_, ?_, ?_⟩
    · intro q hq
      cases hq
      exact hsize
    · rw [hlast]
      nofun
    · intro q marks heq
      rw [hlast] at heq
      cases heq
    · intro q read' heq _
      rw [hlast] at heq
      cases heq
      rfl
    · intro q heq hne
      rw [hlast] at heq
      cases heq
      exact absurd hsize hne
  · have right : ∀ {v : Update} (q : Picture) (read' : Bool), lastOutcome (done ++ [.gpu p read]) = some (.gpu q read') →
        (q.width, q.height) = (w, h) → v.held = some q := by
      intro v q read' heq hq
      rw [hlast] at heq
      cases heq
      exact absurd hq hsize
    cases read with
    | true =>
      have hd : decoded tracks w h u (.gpu p true) = { u with
          changed := u.changed.all w h
          previous := if tracks then some p else u.previous
          pixels := p.write u.pixels w h fun _ => true
          drew := true
          held := none } := by
        unfold decoded
        dsimp only
        rw [if_neg hsize, if_pos rfl]
      rw [hd]
      refine ⟨?_, fun r hr c hc _ => hall r hr c hc, kept rfl, agrees rfl, nofun, ?_, ?_, right, ?_⟩
      · show (p.write u.pixels w h _).len = _
        rw [Picture.write_len]
        exact hl.len
      · rw [hlast]
        nofun
      · intro q marks heq
        rw [hlast] at heq
        cases heq
      · intro q heq _
        rw [hlast] at heq
        cases heq
        refine ⟨rfl, rfl, fun ht => if_pos ht, hall, ?_⟩
        intro r hr c hc v hv
        show (p.write u.pixels w h fun _ => true).get _ = v
        rw [Picture.write_get p _ _ hr hc, if_pos rfl, hv]
        rfl
    | false =>
      have hd : decoded tracks w h u (.gpu p false) = { u with
          changed := u.changed.all w h
          previous := if tracks then some p else u.previous } := by
        unfold decoded
        dsimp only
        rw [if_neg hsize, if_neg nofun]
      rw [hd]
      refine ⟨hl.len, fun r hr c hc _ => hall r hr c hc, kept rfl, agrees rfl, hl.size, ?_, ?_, right, ?_⟩
      · rw [hlast]
        nofun
      · intro q marks heq
        rw [hlast] at heq
        cases heq
      · intro q heq
        rw [hlast] at heq
        cases heq

theorem Loop.step (hl : Loop tracks w h front before done u) {o : Outcome} (hf : Faithful w h u o) :
    Loop tracks w h front before (done ++ [o]) (decoded tracks w h u o) := by
  cases o with
  | nothing =>
    have hlast : lastOutcome (done ++ [.nothing]) = lastOutcome done := lastOutcome_snoc done _
    exact ⟨hl.len, hl.grows, hl.kept, hl.agrees, hl.size, hlast ▸ hl.none_, hlast ▸ hl.converted, hlast ▸ hl.right,
      hlast ▸ hl.other⟩
  | converted p marks => exact hl.converted_step hf
  | gpu p read => exact hl.gpu_step p read

/-- All the frames of an update. -/
theorem Loop.frames {outcomes : List Outcome}
    (hstart : ∀ r < h, ∀ c < w, ¬before.changed.Covers r c →
      ∀ v, (before.previous.bind fun p => p.pixel? r c) = some v → front r c = v)
    (hheld : before.held = none) (hdrew : before.drew = false)
    (hm : Meets (fun u o => some (decoded tracks w h u o)) (Faithful w h) before outcomes) :
    Loop tracks w h front before outcomes (outcomes.foldl (decoded tracks w h) before) := by
  refine trace_inv (Loop tracks w h front before) ?_ ?_ hm (run_some _ before outcomes)
  · refine ⟨rfl, fun _ _ _ _ hcov => hcov, fun _ _ _ _ _ => rfl, hstart, ?_, fun _ => ⟨rfl, rfl, hheld, hdrew⟩, nofun, nofun, nofun⟩
    rw [hheld]
    nofun
  · intro tr u o u' hl hf hu
    cases hu
    exact hl.step hf

/-- What an update that drew leaves of its last picture. -/
structure Drawn (w h : Nat) (front : Nat → Nat → UInt32) (u : Update) (p : Picture) : Prop where
  held : u.held = none
  drew : u.drew = true
  previous : u.previous = some p
  written : ∀ r < h, u.changed.row r = true → ∀ c < w, ∀ v, p.pixel? r c = some v → u.pixels.get (r * w + c) = v
  unmarked : ∀ r < h, ∀ c < w, ¬u.changed.Covers r c → ∀ v, p.pixel? r c = some v → front r c = v
  still : ∀ r < h, u.changed.row r = true → ∀ c < w, ¬u.changed.Covers r c → u.pixels.get (r * w + c) = front r c

theorem Loop.drawn_converted (hl : Loop tracks w h front before done u) {p : Picture} {marks : List (Nat × Nat × Nat)}
    (hlast : lastOutcome done = some (.converted p marks)) : Drawn w h front u p := by
  obtain ⟨hheld, hdrew, hprev, ⟨hpw, hph⟩, hrows⟩ := hl.converted p marks hlast
  have hsame : ∀ r < h, ∀ c < w, ¬u.changed.Covers r c → ∀ v, p.pixel? r c = some v → front r c = v := by
    intro r hr c hc hun v hv
    refine hl.agrees r hr c hc hun v ?_
    rw [hprev]
    exact hv
  refine ⟨hheld, hdrew, hprev, ?_, hsame, ?_⟩
  · intro r hr hmark c hc v hv
    rw [pixel?_of_le hpw hph hr hc] at hv
    rw [hrows r hr hmark c hc]
    exact Option.some.inj hv
  · intro r hr hmark c hc hun
    rw [hrows r hr hmark c hc]
    exact (hsame r hr c hc hun _ (pixel?_of_le hpw hph hr hc)).symm

theorem Loop.drawn_other (hl : Loop tracks w h front before done u) {p : Picture}
    (hlast : lastOutcome done = some (.gpu p true)) (hsize : (p.width, p.height) ≠ (w, h)) (ht : tracks = true) :
    Drawn w h front u p := by
  obtain ⟨hheld, hdrew, hprev, hall, hrows⟩ := hl.other p hlast hsize
  exact ⟨hheld, hdrew, hprev ht, fun r hr _ c hc => hrows r hr c hc,
    fun r hr c hc hun => absurd (hall r hr c hc) hun, fun r hr _ c hc hun => absurd (hall r hr c hc) hun⟩

/-! ## What a client keeps -/

theorem shown_of_front {fb : Framebuffer} (hb : fb.behind = false) (r c : Nat) :
    fb.shown r c = fb.pixels.get (r * fb.width + c) := by
  unfold Framebuffer.shown Framebuffer.catchUp
  rw [hb, if_neg nofun]

/-- The buffer behind has what is on screen in the rows that the last picture did not convert, and what
is on screen is the decoder's previous picture. -/
structure Fresh (s : Client) : Prop where
  front : s.framebuffer.behind = false
  carried : ∀ r < s.framebuffer.height, s.back.carried.row r = false → ∀ c < s.framebuffer.width,
    s.back.pixels.get (r * s.framebuffer.width + c) = s.framebuffer.pixels.get (r * s.framebuffer.width + c)
  previous : ∀ r < s.framebuffer.height, ∀ c < s.framebuffer.width, ∀ v,
    ((s.decoder.bind Current.previous).bind fun p => p.pixel? r c) = some v →
      s.framebuffer.pixels.get (r * s.framebuffer.width + c) = v

structure Tracked (s : Client) : Prop where
  width : s.framebuffer.width = s.width.toNat
  height : s.framebuffer.height = s.height.toNat
  len : s.framebuffer.pixels.len = s.framebuffer.width * s.framebuffer.height
  backLen : s.back.pixels.len = s.framebuffer.width * s.framebuffer.height
  fresh : s.back.stale = false → Fresh s

theorem tracked_start : Tracked Client.start := ⟨rfl, rfl, rfl, rfl, nofun⟩

variable {s s' : Client} {codec : Codec} {hardware : Hardware} {made : Bool} {outcomes : List Outcome}

theorem tracked_resize (s : Client) (width height : Int) (hw : s.width = width) (hh : s.height = height) :
    Tracked (s.resize width height) := by
  subst hw hh
  exact ⟨rfl, rfl, rfl, rfl, nofun⟩

theorem Tracked.catchUp (ht : Tracked s) (ok : Bool) :
    Tracked { s with framebuffer := s.framebuffer.catchUp ok } := by
  have hsize : (s.framebuffer.catchUp ok).width = s.framebuffer.width ∧
      (s.framebuffer.catchUp ok).height = s.framebuffer.height ∧
      (s.framebuffer.catchUp ok).pixels.len = s.framebuffer.pixels.len := by
    unfold Framebuffer.catchUp
    split
    · split
      · split
        · exact ⟨rfl, rfl, Picture.write_len _ _ _ _ _⟩
        · exact ⟨rfl, rfl, rfl⟩
      · exact ⟨rfl, rfl, rfl⟩
    · exact ⟨rfl, rfl, rfl⟩
  obtain ⟨hw, hh, hlen⟩ := hsize
  refine ⟨hw.trans ht.width, hh.trans ht.height, ?_, ?_, ?_⟩
  · show (s.framebuffer.catchUp ok).pixels.len = (s.framebuffer.catchUp ok).width * (s.framebuffer.catchUp ok).height
    rw [hlen, hw, hh]
    exact ht.len
  · show s.back.pixels.len = (s.framebuffer.catchUp ok).width * (s.framebuffer.catchUp ok).height
    rw [hw, hh]
    exact ht.backLen
  · intro hs
    have hf := ht.fresh hs
    have heq : s.framebuffer.catchUp ok = s.framebuffer := by
      unfold Framebuffer.catchUp
      rw [hf.front, if_neg nofun]
    rw [heq]
    exact hf

/-! ## One update -/

theorem decoderFor_previous {c : Current} (hd : s.decoderFor codec w h hardware made = some c) :
    c.previous = none ∨ s.decoder = some c := by
  unfold Client.decoderFor at hd
  dsimp only at hd
  have fresh : (if made then some (⟨codec, (w, h), hardware, none⟩ : Current) else none) = some c → c.previous = none := by
    intro hc
    split at hc
    · cases hc
      rfl
    · cases hc
  split at hd
  · rename_i c' hc'
    split at hd
    · cases hd
      exact Or.inr hc'
    · exact Or.inl (fresh hd)
  · exact Or.inl (fresh hd)

/-- What an update that is decoded starts from. -/
theorem Tracked.begins (ht : Tracked s) {c : Current} {u : Update} (hb : s.begins codec hardware made = some (c, u)) :
    0 < s.framebuffer.width ∧ 0 < s.framebuffer.height ∧ (c.previous = none ∨ s.decoder = some c) ∧
      u = ⟨s.back.pixels, (s.back.begin s.framebuffer.width s.framebuffer.height).changed, false, none, c.previous⟩ := by
  unfold Client.begins at hb
  rw [← ht.width, ← ht.height] at hb
  dsimp only at hb
  split at hb
  · cases hb
  · rename_i hn
    obtain ⟨c', hd, heq⟩ := Option.map_eq_some_iff.mp hb
    cases heq
    exact ⟨by omega, by omega, decoderFor_previous hd, rfl⟩

/-- The buffer behind is in step where something is not marked from the start. -/
theorem Tracked.begin_fresh (ht : Tracked s) {r c : Nat} (hr : r < s.framebuffer.height) (hc : c < s.framebuffer.width)
    (hun : ¬(s.back.begin s.framebuffer.width s.framebuffer.height).changed.Covers r c) : Fresh s := by
  refine ht.fresh ?_
  cases hs : s.back.stale with
  | false => rfl
  | true =>
    refine absurd ?_ hun
    unfold Back.begin
    dsimp only
    rw [hs, if_pos rfl]
    exact Changes.all_covers hr hc

/-- The frames of an update, from where the client starts them. -/
theorem Tracked.frames (ht : Tracked s) {c : Current} {u : Update} (hb : s.begins codec hardware made = some (c, u))
    (hm : Meets (fun u o => some (decoded tracks s.framebuffer.width s.framebuffer.height u o))
      (Faithful s.framebuffer.width s.framebuffer.height) u outcomes) :
    Loop tracks s.framebuffer.width s.framebuffer.height s.framebuffer.shown u outcomes
      (outcomes.foldl (decoded tracks s.framebuffer.width s.framebuffer.height) u) := by
  obtain ⟨-, -, hprev, rfl⟩ := ht.begins hb
  refine Loop.frames ?_ rfl rfl hm
  intro r hr col hcol hun v hv
  have hf := ht.begin_fresh hr hcol hun
  rw [shown_of_front hf.front]
  rcases hprev with hnone | hsome
  · rw [hnone] at hv
    cases hv
  · refine hf.previous r hr col hcol v ?_
    rw [hsome]
    exact hv

/-- The rows that were carried, those that were converted, and those that neither picture touched. -/
theorem carry_get (fb : Framebuffer) {b : Back} (hw : 0 < fb.width) (hlen : b.pixels.len = fb.width * fb.height) :
    ∃ pixels : Buffer UInt32, b.carry fb = (true, { b with pixels }) ∧ pixels.len = b.pixels.len ∧
      ∀ r < fb.height, ∀ c < fb.width, pixels.get (r * fb.width + c) =
        if (b.carried.row r && !b.changed.row r) = true then fb.pixels.get (r * fb.width + c)
        else b.pixels.get (r * fb.width + c) := by
  have hn : ¬(fb.width = 0 ∨ b.pixels.len ≠ fb.width * fb.height) := by
    rintro (h0 | hne)
    · omega
    · exact hne hlen
  refine ⟨b.pixels.writeRows fb.width fb.width fb.height (fun row => b.carried.row row && !b.changed.row row)
    fun r c => fb.pixels.get (r * fb.width + c), ?_, ?_, ?_⟩
  · unfold Back.carry Framebuffer.carryRows
    rw [if_neg hn]
  · exact Lib.Buffer.writeRows_len _ _ _ _ _ _
  · intro r hr c hc
    rw [Lib.Buffer.writeRows_get _ _ _ _ (Nat.le_refl _) hc]
    simp [hr, hc]

theorem swap_eq (fb : Framebuffer) {next : Buffer UInt32} (hw : 0 < fb.width) (hlen : next.len = fb.width * fb.height) :
    fb.swap next = some ({ fb with pixels := next, gpu := none, behind := false }, fb.pixels) := by
  unfold Framebuffer.swap
  rw [if_neg]
  rintro (hne | h0)
  · exact hne hlen
  · omega

/-- What is asked of an update, and that the next one finds what it rests on. -/
def Kept (outcomes : List Outcome) (s s' : Client) : Prop :=
  Tracked s' ∧
    (∀ p, lastPicture outcomes = some p → ∀ r < s'.framebuffer.height, ∀ c < s'.framebuffer.width, ∀ v,
      p.pixel? r c = some v → s'.framebuffer.shown r c = v) ∧
    ∀ r < s'.framebuffer.height, ∀ c < s'.framebuffer.width,
      s'.framebuffer.shown r c ≠ s.framebuffer.shown r c →
        ∃ x y w h, s'.damaged = s.damaged ++ [(x, y, w, h)] ∧ x ≤ c ∧ c < x + w ∧ y ≤ r ∧ r < y + h

section
variable {current : Current} {u₀ u : Update} {p : Picture}

/-- An update that repeats the last picture. -/
theorem Tracked.repeated (ht : Tracked s) (hb : s.begins codec hardware made = some (current, u₀))
    (hl : Loop tracks s.framebuffer.width s.framebuffer.height s.framebuffer.shown u₀ outcomes u)
    (hd : Drawn s.framebuffer.width s.framebuffer.height s.framebuffer.shown u p)
    (hun : ∀ r < s.framebuffer.height, ∀ c < s.framebuffer.width, ¬u.changed.Covers r c)
    (hp : lastPicture outcomes = some p) : Kept outcomes s (s.took current u) := by
  obtain ⟨hw, hh, -, rfl⟩ := ht.begins hb
  have hf : Fresh s := ht.begin_fresh hh hw fun hcov => hun 0 hh 0 hw (hl.grows 0 hh 0 hw hcov)
  refine ⟨⟨ht.width, ht.height, ht.len, hl.len.trans ht.backLen, fun _ => ⟨hf.front, ?_, ?_⟩⟩, ?_, ?_⟩
  · intro r hr hcar c hc
    show u.pixels.get (r * s.framebuffer.width + c) = s.framebuffer.pixels.get (r * s.framebuffer.width + c)
    cases hrow : u.changed.row r with
    | false => rw [hl.kept r hr hrow c hc, ← hf.carried r hr hcar c hc]
    | true => rw [hd.still r hr hrow c hc (hun r hr c hc), shown_of_front hf.front]
  · intro r hr c hc v hv
    have hv' : (u.previous.bind fun q => q.pixel? r c) = some v := hv
    rw [hd.previous] at hv'
    show s.framebuffer.pixels.get (r * s.framebuffer.width + c) = v
    rw [← shown_of_front hf.front]
    exact hd.unmarked r hr c hc (hun r hr c hc) v hv'
  · intro q hq r hr c hc v hv
    cases hp.symm.trans hq
    exact hd.unmarked r hr c hc (hun r hr c hc) v hv
  · intro r hr c hc hne
    exact absurd rfl hne

/-- An update whose picture is swapped in. -/
theorem Tracked.swapped (ht : Tracked s) (hb : s.begins codec hardware made = some (current, u₀))
    (hl : Loop tracks s.framebuffer.width s.framebuffer.height s.framebuffer.shown u₀ outcomes u)
    (hd : Drawn s.framebuffer.width s.framebuffer.height s.framebuffer.shown u p) {rect : Nat × Nat × Nat × Nat}
    (hbounds : u.changed.bounds s.framebuffer.width = some rect) (hp : lastPicture outcomes = some p) :
    Kept outcomes s ((s.took current u).present s.framebuffer.width s.framebuffer.height u) := by
  obtain ⟨hw, hh, -, hu₀⟩ := ht.begins hb
  have hlen : u.pixels.len = s.framebuffer.width * s.framebuffer.height := by
    rw [hl.len, hu₀]
    exact ht.backLen
  obtain ⟨pixels, hcarry, hplen, hget⟩ := carry_get s.framebuffer (b := (s.took current u).back) hw hlen
  have hswap := swap_eq s.framebuffer hw (hplen.trans hlen)
  have hs' : (s.took current u).present s.framebuffer.width s.framebuffer.height u =
      { s.took current u with
        framebuffer := { s.framebuffer with pixels, gpu := none, behind := false }
        back := { pixels := s.framebuffer.pixels, changed := s.back.carried, carried := u.changed, stale := false }
        damaged := s.damaged ++ [rect] } := by
    unfold Client.present
    have hbounds' : (s.took current u).back.changed.bounds s.framebuffer.width = some rect := hbounds
    have hcarry' : (s.took current u).back.carry (s.took current u).framebuffer = _ := hcarry
    have hswap' : (s.took current u).framebuffer.swap pixels = _ := hswap
    rw [hd.held, hd.drew]
    dsimp only
    rw [if_neg nofun, hbounds', hcarry']
    dsimp only
    rw [hswap']
    rfl
  -- a row that is not converted is as it was
  have hstill : ∀ r < s.framebuffer.height, u.changed.row r = false → ∀ c < s.framebuffer.width,
      pixels.get (r * s.framebuffer.width + c) = s.framebuffer.pixels.get (r * s.framebuffer.width + c) ∧ Fresh s := by
    intro r hr hrow c hc
    have hun : ¬u₀.changed.Covers r c := by
      intro hcov
      have hmoved := (hl.grows r hr c hc hcov).moved
      rw [hrow] at hmoved
      cases hmoved
    rw [hu₀] at hun
    have hf := ht.begin_fresh hr hc hun
    refine ⟨?_, hf⟩
    rw [hget r hr c hc]
    split
    · rfl
    · rename_i hcar
      have hcar' : s.back.carried.row r = false := by
        have hcar'' : ¬(s.back.carried.row r && !u.changed.row r) = true := hcar
        simpa [hrow] using hcar''
      show u.pixels.get _ = _
      rw [hl.kept r hr hrow c hc, hu₀]
      exact hf.carried r hr hcar' c hc
  have hrow_get : ∀ r < s.framebuffer.height, u.changed.row r = true → ∀ c < s.framebuffer.width,
      pixels.get (r * s.framebuffer.width + c) = u.pixels.get (r * s.framebuffer.width + c) := by
    intro r hr hrow c hc
    rw [hget r hr c hc, if_neg]
    · rfl
    · show ¬(s.back.carried.row r && !u.changed.row r) = true
      simp [hrow]
  have hlatest : ∀ r < s.framebuffer.height, ∀ c < s.framebuffer.width, ∀ v, p.pixel? r c = some v →
      pixels.get (r * s.framebuffer.width + c) = v := by
    intro r hr c hc v hv
    cases hrow : u.changed.row r with
    | true => rw [hrow_get r hr hrow c hc, hd.written r hr hrow c hc v hv]
    | false =>
      obtain ⟨hsame, hf⟩ := hstill r hr hrow c hc
      rw [hsame, ← shown_of_front hf.front]
      refine hd.unmarked r hr c hc ?_ v hv
      intro hcov
      have hmoved := hcov.moved
      rw [hrow] at hmoved
      cases hmoved
  rw [hs']
  refine ⟨⟨ht.width, ht.height, hplen.trans hlen, ht.len, fun _ => ⟨rfl, ?_, ?_⟩⟩, ?_, ?_⟩
  · intro r hr hrow c hc
    exact (hstill r hr hrow c hc).1.symm
  · intro r hr c hc v hv
    have hv' : (u.previous.bind fun q => q.pixel? r c) = some v := hv
    rw [hd.previous] at hv'
    exact hlatest r hr c hc v hv'
  · intro q hq r hr c hc v hv
    cases hp.symm.trans hq
    rw [shown_of_front rfl]
    exact hlatest r hr c hc v hv
  · intro r hr c hc hne
    rw [shown_of_front rfl] at hne
    have hcov : u.changed.Covers r c := by
      by_contra hun
      apply hne
      cases hrow : u.changed.row r with
      | true =>
        show pixels.get (r * s.framebuffer.width + c) = _
        rw [hrow_get r hr hrow c hc, hd.still r hr hrow c hc hun]
      | false =>
        obtain ⟨hsame, hf⟩ := hstill r hr hrow c hc
        rw [shown_of_front hf.front]
        exact hsame
    obtain ⟨x, y, w', h', hb', hin⟩ := hcov.bounds hc
    cases hbounds.symm.trans hb'
    exact ⟨x, y, w', h', rfl, hin⟩

/-- An update that drew, put on screen or found to be what is there. -/
theorem Tracked.drawn (ht : Tracked s) (hb : s.begins codec hardware made = some (current, u₀))
    (hl : Loop tracks s.framebuffer.width s.framebuffer.height s.framebuffer.shown u₀ outcomes u)
    (hd : Drawn s.framebuffer.width s.framebuffer.height s.framebuffer.shown u p) (hp : lastPicture outcomes = some p) :
    Kept outcomes s ((s.took current u).present s.framebuffer.width s.framebuffer.height u) := by
  cases hbounds : u.changed.bounds s.framebuffer.width with
  | some rect => exact ht.swapped hb hl hd hbounds hp
  | none =>
    have hun : ∀ r < s.framebuffer.height, ∀ c < s.framebuffer.width, ¬u.changed.Covers r c := by
      intro r _ c hc hcov
      obtain ⟨x, y, w', h', hsome, -⟩ := hcov.bounds hc
      cases hbounds.symm.trans hsome
    have hs' : (s.took current u).present s.framebuffer.width s.framebuffer.height u = s.took current u := by
      unfold Client.present
      have hbounds' : (s.took current u).back.changed.bounds s.framebuffer.width = none := hbounds
      rw [hd.held, hd.drew]
      dsimp only
      rw [if_neg nofun, hbounds']
    rw [hs']
    exact ht.repeated hb hl hd hun hp

/-- An update that ends with a picture on the GPU. -/
theorem Tracked.shownGpu (ht : Tracked s) (hb : s.begins codec hardware made = some (current, u₀))
    (hl : Loop tracks s.framebuffer.width s.framebuffer.height s.framebuffer.shown u₀ outcomes u)
    (hheld : u.held = some p) (hp : lastPicture outcomes = some p) :
    Kept outcomes s ((s.took current u).present s.framebuffer.width s.framebuffer.height u) := by
  obtain ⟨hw, hh, -, hu₀⟩ := ht.begins hb
  have hsize := hl.size p hheld
  obtain ⟨hpw, hph⟩ := Prod.mk.inj hsize
  have hshow : (s.took current u).framebuffer.showGpu p =
      some { s.framebuffer with gpu := some p, behind := true } := by
    unfold Framebuffer.showGpu
    rw [if_neg]
    · rfl
    · rintro (hne | h0)
      · exact hne hsize
      · exact absurd h0 (Nat.pos_iff_ne_zero.mp hw)
  have hs' : (s.took current u).present s.framebuffer.width s.framebuffer.height u =
      { s.took current u with
        framebuffer := { s.framebuffer with gpu := some p, behind := true }
        back := (s.took current u).back.lost
        damaged := s.damaged ++ [(0, 0, s.framebuffer.width, s.framebuffer.height)] } := by
    unfold Client.present
    rw [hheld]
    dsimp only
    rw [hshow]
    rfl
  rw [hs']
  refine ⟨⟨ht.width, ht.height, ht.len, ?_, nofun⟩, ?_, ?_⟩
  · show u.pixels.len = _
    rw [hl.len, hu₀]
    exact ht.backLen
  · intro q hq r hr c hc v hv
    cases hp.symm.trans hq
    show (p.write s.framebuffer.pixels s.framebuffer.width s.framebuffer.height fun _ => true).get
      (r * s.framebuffer.width + c) = v
    rw [Picture.write_get p _ _ hr hc, if_pos rfl, hv]
    rfl
  · intro r hr c hc _
    exact ⟨0, 0, s.framebuffer.width, s.framebuffer.height, rfl, Nat.zero_le _, by rwa [Nat.zero_add], Nat.zero_le _,
      by rwa [Nat.zero_add]⟩

/-- An update of which the decoder makes nothing. -/
theorem Tracked.nothing (ht : Tracked s) (hb : s.begins codec hardware made = some (current, u₀))
    (hl : Loop tracks s.framebuffer.width s.framebuffer.height s.framebuffer.shown u₀ outcomes u)
    (hlast : lastOutcome outcomes = none) :
    Kept outcomes s ((s.took current u).present s.framebuffer.width s.framebuffer.height u) := by
  obtain ⟨-, -, hprev, hu₀⟩ := ht.begins hb
  obtain ⟨hpixels, hprevious, hheld, hdrew⟩ := hl.none_ hlast
  rw [hu₀] at hpixels hprevious
  have hs' : (s.took current u).present s.framebuffer.width s.framebuffer.height u = s.took current u := by
    unfold Client.present
    rw [hheld, hdrew]
    rfl
  rw [hs']
  refine ⟨⟨ht.width, ht.height, ht.len, ?_, fun hs => ?_⟩, ?_, fun r _ c _ hne => absurd rfl hne⟩
  · show u.pixels.len = _
    rw [hpixels]
    exact ht.backLen
  · have hf := ht.fresh hs
    refine ⟨hf.front, ?_, ?_⟩
    · show ∀ r < _, _ → ∀ c < _, u.pixels.get _ = _
      rw [hpixels]
      exact hf.carried
    · intro r hr c hc v hv
      have hv' : (u.previous.bind fun q => q.pixel? r c) = some v := hv
      rw [hprevious] at hv'
      rcases hprev with hnone | hsome
      · rw [hnone] at hv'
        cases hv'
      · refine hf.previous r hr c hc v ?_
        rw [hsome]
        exact hv'
  · intro q hq
    unfold lastPicture at hq
    rw [hlast] at hq
    cases hq

end

/-- One update. -/
theorem Tracked.picture (ht : Tracked s) (hd : Decodes tracks s (.picture codec hardware made outcomes))
    (he : EndsWell tracks s (.picture codec hardware made outcomes)) :
    Tracked (s.picture tracks codec hardware made outcomes) ∧
      Shows codec hardware made outcomes s (s.picture tracks codec hardware made outcomes) := by
  cases hb : s.begins codec hardware made with
  | none =>
    have same : ∀ s' : Client, s'.framebuffer = s.framebuffer → Shows codec hardware made outcomes s s' := by
      intro s' heq
      refine ⟨?_, ?_⟩
      · rw [hb]
        nofun
      · rw [heq]
        intro r _ c _ hne
        exact absurd rfl hne
    unfold Client.picture
    dsimp only
    rw [hb]
    split
    · exact ⟨ht, same s rfl⟩
    · refine ⟨⟨ht.width, ht.height, ht.len, ht.backLen, fun hs => ?_⟩, same _ rfl⟩
      have hf := ht.fresh hs
      exact ⟨hf.front, hf.carried, nofun⟩
  | some cu =>
    obtain ⟨current, u₀⟩ := cu
    have hs' : s.picture tracks codec hardware made outcomes =
        (s.took current (outcomes.foldl (decoded tracks s.framebuffer.width s.framebuffer.height) u₀)).present
          s.framebuffer.width s.framebuffer.height
          (outcomes.foldl (decoded tracks s.framebuffer.width s.framebuffer.height) u₀) := by
      have hn := hb
      unfold Client.begins at hn
      dsimp only at hn
      unfold Client.picture
      dsimp only
      split at hn
      · cases hn
      · rename_i hsize
        rw [if_neg hsize, hb, ht.width, ht.height]
    have hm := hd (current, u₀) hb
    rw [← ht.width, ← ht.height] at hm
    have hl := ht.frames hb hm
    have hends : (lastOutcome outcomes).all (Outcome.ends tracks s.framebuffer.width s.framebuffer.height) = true := by
      rw [ht.width, ht.height]
      exact he
    have hkept : Kept outcomes s (s.picture tracks codec hardware made outcomes) := by
      rw [hs']
      cases hlast : lastOutcome outcomes with
      | none => exact ht.nothing hb hl hlast
      | some o =>
        have hp : lastPicture outcomes = o.picture? := by
          unfold lastPicture
          rw [hlast]
          rfl
        cases o with
        | nothing => exact absurd (isSome_of_lastOutcome hlast) nofun
        | converted p marks => exact ht.drawn hb hl (hl.drawn_converted hlast) hp
        | gpu p read =>
          by_cases hsize : (p.width, p.height) = (s.framebuffer.width, s.framebuffer.height)
          · exact ht.shownGpu hb hl (hl.right p read hlast hsize) hp
          · rw [hlast] at hends
            have hread : read = true ∧ tracks = true := by simpa [Outcome.ends, hsize] using hends
            obtain ⟨rfl, htracks⟩ := hread
            exact ht.drawn hb hl (hl.drawn_other hlast hsize htracks) hp
    exact ⟨hkept.1, fun _ => hkept.2.1, hkept.2.2⟩

theorem Tracked.step (ht : Tracked s) {a : Act} (hd : Decodes tracks s a) (he : EndsWell tracks s a)
    (hs : s.step tracks a = some s') : Tracked s' := by
  cases a with
  | arrived width height =>
    cases hs
    exact ⟨rfl, rfl, rfl, rfl, nofun⟩
  | switched width height =>
    cases hs
    show Tracked (s.switched width height)
    unfold Client.switched
    split
    · exact ht
    · split
      · exact ht
      · exact tracked_resize _ _ _ rfl rfl
  | picture codec hardware made outcomes =>
    cases hs
    exact (ht.picture hd he).1
  | catchUp ok =>
    cases hs
    exact ht.catchUp ok

/-- A desktop of two pixels, one above the other. -/
def column (a b : UInt32) : Picture := ⟨1, 2, fun r _ => if r = 0 then a else b⟩

def update (outcomes : List Outcome) : Act := .picture .h264 .off true outcomes

/-- The first picture is converted whole, the second in its lower row. -/
def twoPictures : List Act :=
  [.arrived 1 2, update [.converted (column 1 1) []], update [.converted (column 1 2) [(1, 0, 1)]]]

end Vento.Rustdesk.Display
