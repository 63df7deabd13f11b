import Mathlib.Algebra.Ring.Nat
import Mathlib.Data.List.Infix
import Vento.Lib.Runs
/-!
# Clipboard sync on the phone

`SessionClipboard.java`, beside the system clipboard that it reads and writes. What is written there, by it or
by the user, is readable only later and is told of by a callback, which can come first.

What was said on either side is kept in a log, which is what the results are about: `Received` is a text that
the remote sent and the user has not copied since.
-/

namespace Vento.Session

open Vento.Lib

/-- A Java string. -/
abbrev Text := List UInt16

/-- Longer clips are ignored. -/
def maxChars : Nat := 1 <<< 20

/-- The app's settings that are read here. -/
structure AppSettings where
  clipboardIn : Bool
  clipboardOut : Bool
deriving DecidableEq, Repr

/-- Both directions shared. -/
def AppSettings.both : AppSettings := ⟨true, true⟩

structure SessionClipboard where
  forRemote : Option Text := none
  /-- The last text seen from either side. -/
  lastSeen : Option Text := none
  /-- Its own write is pending. -/
  written : Bool := false
deriving DecidableEq, Repr

namespace SessionClipboard

def current (s : SessionClipboard) : Option Text := s.forRemote

/-- A text copied on the remote, and what is written to the system clipboard for it. -/
def fromRemote (on : AppSettings) (s : SessionClipboard) (text : Option Text) : SessionClipboard × Option Text :=
  match text with
  | none => (s, none)
  | some text =>
    if text = [] ∨ s.lastSeen = some text ∨ on.clipboardIn = false then (s, none)
    else (⟨some text, some text, true⟩, some text)

/-- The write was refused. -/
def refused (s : SessionClipboard) : SessionClipboard := { s with written := false }

/-- The clipboard is read: and what is pushed to the remote for it. -/
def read (on : AppSettings) (s : SessionClipboard) (clip : Option Text) : SessionClipboard × Option Text :=
  match clip with
  | none => (s, none)
  | some text =>
    if text.length = 0 ∨ maxChars < text.length then (s, none)
    else if s.lastSeen = some text then (s, none)
    else ({ s with lastSeen := some text, forRemote := some text }, if on.clipboardOut then some text else none)

def onPrimaryClipChanged (on : AppSettings) (s : SessionClipboard) (clip : Option Text) : SessionClipboard × Option Text :=
  if s.written then ({ s with written := false }, none) else s.read on clip

end SessionClipboard

/-! ## With the phone -/

/-- The system clipboard: what can be read from it, what was written since (and whether it was written here), in
order, and how many callbacks are to come. A clip may have no text. -/
structure Phone where
  readable : Option Text
  coming : List (Bool × Option Text)
  owed : Nat
deriving DecidableEq, Repr

/-- What was said: by the remote, to the clipboard, and to the remote. -/
inductive Note where
  | received (text : Text)
  | put (ours : Bool) (clip : Option Text)
  | pushed (text : Text)
deriving DecidableEq, Repr

structure World where
  clipboard : SessionClipboard
  phone : Phone
  log : List Note
deriving DecidableEq, Repr

/-- What happens. A callback may find that the clipboard is not to be read. -/
inductive Event where
  | fromRemote (text : Option Text) (accepted : Bool)
  | copy (clip : Option Text)
  | settle
  | callback (allowed : Bool)
  | focusRead
deriving DecidableEq, Repr

namespace World

def put (w : World) (ours : Bool) (clip : Option Text) : World :=
  { w with
    phone := { w.phone with coming := w.phone.coming ++ [(ours, clip)], owed := w.phone.owed + 1 }
    log := w.log ++ [.put ours clip] }

/-- What the remote sends. Nothing is no text. -/
def hear (w : World) (text : Option Text) : World :=
  { w with log := w.log ++ ((text.filter (· ≠ [])).map Note.received).toList }

def take (w : World) (read : SessionClipboard × Option Text) : World :=
  { w with clipboard := read.1, log := w.log ++ (read.2.map Note.pushed).toList }

def step (on : AppSettings) (w : World) : Event → Option World
  | .fromRemote text accepted =>
    let (clipboard, write) := w.clipboard.fromRemote on text
    match write with
    | none => some { w.hear text with clipboard }
    | some written =>
      if accepted then some ({ w.hear text with clipboard }.put true (some written))
      else some { w.hear text with clipboard := clipboard.refused }
  | .copy clip => some (w.put false clip)
  | .settle =>
    match w.phone.coming with
    | [] => none
    | (_, clip) :: coming => some { w with phone := { w.phone with readable := clip, coming } }
  | .callback allowed =>
    match w.phone.owed with
    | 0 => none
    | owed + 1 =>
      some ({ w with phone := { w.phone with owed } }.take
        (w.clipboard.onPrimaryClipChanged on (if allowed then w.phone.readable else none)))
  | .focusRead => some (w.take (w.clipboard.read on w.phone.readable))

/-- The session starts, with what is on the clipboard then. -/
def start (on : AppSettings) (initial : Option Text) : World :=
  take ⟨{}, ⟨initial, [], 0⟩, []⟩ ((SessionClipboard.read on {} initial))

end World

/-! ## What was said -/

/-- A text that the remote sent and that the user has not copied since. -/
def Received (log : List Note) (text : Text) : Prop :=
  ∃ post, .received text :: post <:+ log ∧ .put false (some text) ∉ post

theorem received_iff_tails {log : List Note} {text : Text} :
    (∃ l ∈ log.tails, l.head? = some (.received text) ∧ .put false (some text) ∉ l.tail) ↔ Received log text := by
  constructor
  · rintro ⟨l, hl, hhead, hput⟩
    obtain ⟨post, rfl⟩ : ∃ post, l = .received text :: post := by
      cases l with
      | nil => cases hhead
      | cons note post => exact ⟨post, by rw [Option.some.inj hhead]⟩
    exact ⟨post, (List.mem_tails _ _).1 hl, hput⟩
  · rintro ⟨post, hpost, hput⟩
    exact ⟨.received text :: post, (List.mem_tails _ _).2 hpost, rfl, hput⟩

instance (log : List Note) (text : Text) : Decidable (Received log text) :=
  decidable_of_iff _ received_iff_tails

theorem received_nil {text : Text} : ¬Received [] text := by
  rintro ⟨post, hpost, -⟩
  exact absurd (List.suffix_nil.1 hpost) (List.cons_ne_nil _ _)

theorem received_snoc {log : List Note} {note : Note} {text : Text} :
    Received (log ++ [note]) text ↔ note = .received text ∨ (Received log text ∧ note ≠ .put false (some text)) := by
  constructor
  · rintro ⟨post, ⟨pre, heq⟩, hput⟩
    rcases snoc_eq_append_cons.1 heq.symm with ⟨-, rfl, -⟩ | ⟨post', rfl, rfl⟩
    · exact .inl rfl
    · simp only [List.mem_append, List.mem_singleton, not_or] at hput
      exact .inr ⟨⟨post', ⟨pre, rfl⟩, hput.1⟩, Ne.symm hput.2⟩
  · rintro (rfl | ⟨⟨post, ⟨pre, rfl⟩, hput⟩, hne⟩)
    · exact ⟨[], List.suffix_append log _, List.not_mem_nil⟩
    · refine ⟨post ++ [note], ⟨pre, by simp⟩, ?_⟩
      simp only [List.mem_append, List.mem_singleton, not_or]
      exact ⟨hput, Ne.symm hne⟩

/-- No text was pushed to the remote that it had sent, unless it was copied after. -/
def NoEcho (log : List Note) : Prop := ∀ pre text post, log = pre ++ .pushed text :: post → ¬Received pre text

theorem NoEcho.snoc {log : List Note} {note : Note} (h : NoEcho log) (hnote : ∀ text, note = .pushed text → ¬Received log text) :
    NoEcho (log ++ [note]) := by
  intro pre text post heq
  rcases snoc_eq_append_cons.1 heq with ⟨rfl, rfl, -⟩ | ⟨post', rfl, -⟩
  · exact hnote text rfl
  · exact h pre text post' rfl

def Note.remote? : Note → Option Text
  | .received text | .pushed text => some text
  | .put _ _ => none

def Note.put? : Note → Option (Bool × Option Text)
  | .put ours clip => some (ours, clip)
  | .received _ | .pushed _ => none

/-- The text that the remote was pushed, or itself sent, last. -/
def known (log : List Note) : Option Text := (log.filterMap Note.remote?).getLast?

/-- What was written to the clipboard last, and whether it was written here. -/
def lastPut (log : List Note) : Option (Bool × Option Text) := (log.filterMap Note.put?).getLast?

theorem known_snoc (log : List Note) (note : Note) : known (log ++ [note]) = note.remote?.or (known log) := by
  cases note <;> simp [known, List.filterMap_append, Note.remote?]

theorem lastPut_snoc (log : List Note) (note : Note) : lastPut (log ++ [note]) = note.put?.or (lastPut log) := by
  cases note <;> simp [lastPut, List.filterMap_append, Note.put?]

/-! ## What happens on an event -/

namespace SessionClipboard

/-- A read of the clip finds a text other than the last one seen. -/
def Finds (s : SessionClipboard) (clip : Option Text) : Prop :=
  ∃ text ∈ clip, 0 < text.length ∧ text.length ≤ maxChars ∧ s.lastSeen ≠ some text

instance (s : SessionClipboard) (clip : Option Text) : Decidable (s.Finds clip) :=
  inferInstanceAs (Decidable (∃ text ∈ clip, _))

theorem read_cases (s : SessionClipboard) (clip : Option Text) :
    (¬s.Finds clip ∧ s.read .both clip = (s, none)) ∨
      ∃ text, clip = some text ∧ 0 < text.length ∧ text.length ≤ maxChars ∧ s.lastSeen ≠ some text ∧
        s.read .both clip = (⟨some text, some text, s.written⟩, some text) := by
  cases clip with
  | none => exact .inl ⟨by simp [Finds], rfl⟩
  | some text =>
    by_cases hlen : text.length = 0 ∨ maxChars < text.length
    · refine .inl ⟨?_, by simp only [read, hlen, if_true]⟩
      rintro ⟨_, ⟨⟩, hpos, hmax, -⟩
      omega
    · by_cases hseen : s.lastSeen = some text
      · refine .inl ⟨?_, by simp only [read, hlen, hseen, if_true, if_false]⟩
        rintro ⟨_, ⟨⟩, -, -, hne⟩
        exact hne hseen
      · refine .inr ⟨text, rfl, by omega, by omega, hseen, ?_⟩
        simp only [read, hlen, hseen, if_false]
        rfl

end SessionClipboard

namespace World

variable {w w' : World} {e : Event}

/-- What is read is seen, and pushed if it is found to be new. -/
theorem take_read_cases (w : World) :
    (¬w.clipboard.Finds w.phone.readable ∧ w.take (w.clipboard.read .both w.phone.readable) = w) ∨
      ∃ text, w.phone.readable = some text ∧ 0 < text.length ∧ text.length ≤ maxChars ∧ w.clipboard.lastSeen ≠ some text ∧
        w.take (w.clipboard.read .both w.phone.readable) =
          { w with clipboard := ⟨some text, some text, w.clipboard.written⟩, log := w.log ++ [.pushed text] } := by
  rcases w.clipboard.read_cases w.phone.readable with ⟨hno, hread⟩ | ⟨text, hclip, hpos, hmax, hne, hread⟩
  · refine .inl ⟨hno, ?_⟩
    rw [hread]
    simp [take]
  · refine .inr ⟨text, hclip, hpos, hmax, hne, ?_⟩
    rw [hread]
    rfl

/-- The clipboard is read on the event. -/
def Reads (w : World) (e : Event) : Prop := e = .focusRead ∨ (e = .callback true ∧ w.clipboard.written = false)

/-- What happens on an event: nothing that was said, a text of the remote's that is not written or one that is, a
copy, a value that can now be read, or a push. -/
theorem step_cases (hs : w.step .both e = some w') :
    (∃ written owed, w' = { w with clipboard := { w.clipboard with written }, phone := { w.phone with owed } } ∧
        (e = .focusRead → ¬w.clipboard.Finds w.phone.readable)) ∨
      (∃ text accepted, e = .fromRemote (some text) accepted ∧ text ≠ [] ∧ w.clipboard.lastSeen = some text ∧
        w' = { w with log := w.log ++ [.received text] }) ∨
      (∃ text, e = .fromRemote (some text) false ∧ text ≠ [] ∧
        w' = { w with clipboard := ⟨some text, some text, false⟩, log := w.log ++ [.received text] }) ∨
      (∃ text, e = .fromRemote (some text) true ∧ text ≠ [] ∧
        w' = put ⟨⟨some text, some text, true⟩, w.phone, w.log ++ [.received text]⟩ true (some text)) ∨
      (∃ clip, e = .copy clip ∧ w' = w.put false clip) ∨
      (∃ ours clip coming, e = .settle ∧ w.phone.coming = (ours, clip) :: coming ∧
        w' = { w with phone := { w.phone with readable := clip, coming } }) ∨
      ∃ text owed, w.Reads e ∧ w.phone.readable = some text ∧ 0 < text.length ∧ text.length ≤ maxChars ∧
        w.clipboard.lastSeen ≠ some text ∧
        w' = ⟨⟨some text, some text, w.clipboard.written⟩, { w.phone with owed }, w.log ++ [.pushed text]⟩ := by
  cases e with
  | fromRemote text accepted =>
    cases text with
    | none =>
      simp only [step, SessionClipboard.fromRemote, hear, Option.filter_none, Option.map_none, Option.toList_none,
        List.append_nil, Option.some.injEq] at hs
      exact .inl ⟨_, _, hs.symm, by simp⟩
    | some text =>
      by_cases hnil : text = []
      · simp only [step, SessionClipboard.fromRemote, hear, hnil, true_or, if_true, ne_eq, not_true_eq_false, decide_false,
          Option.filter_some_neg, Option.map_none, Option.toList_none, List.append_nil, Option.some.injEq] at hs
        exact .inl ⟨_, _, hs.symm, by simp⟩
      · have hhear : w.hear (some text) = { w with log := w.log ++ [Note.received text] } := by simp [hear, hnil]
        by_cases hseen : w.clipboard.lastSeen = some text
        · simp only [step, SessionClipboard.fromRemote, hseen, true_or, or_true, if_true, Option.some.injEq] at hs
          exact .inr (.inl ⟨text, accepted, rfl, hnil, hseen, by rw [← hs, hhear]⟩)
        · have hwrite : w.clipboard.fromRemote .both (some text) = (⟨some text, some text, true⟩, some text) := by
            simp [SessionClipboard.fromRemote, hnil, hseen, AppSettings.both]
          simp only [step, hwrite, hhear] at hs
          cases accepted with
          | true => exact .inr (.inr (.inr (.inl ⟨text, rfl, hnil, by simpa using hs.symm⟩)))
          | false => exact .inr (.inr (.inl ⟨text, rfl, hnil, by simpa [SessionClipboard.refused] using hs.symm⟩))
  | copy clip =>
    cases hs
    exact .inr (.inr (.inr (.inr (.inl ⟨clip, rfl, rfl⟩))))
  | settle =>
    simp only [step] at hs
    split at hs
    · cases hs
    · next ours clip coming hcoming =>
      cases hs
      exact .inr (.inr (.inr (.inr (.inr (.inl ⟨ours, clip, coming, rfl, hcoming, rfl⟩)))))
  | callback allowed =>
    simp only [step] at hs
    split at hs
    · cases hs
    · next owed howed =>
      unfold SessionClipboard.onPrimaryClipChanged at hs
      split at hs
      · cases hs
        refine .inl ⟨false, owed, ?_, by simp⟩
        simp [take]
      · next hwritten =>
        rw [Bool.not_eq_true] at hwritten
        cases allowed with
        | false =>
          cases hs
          refine .inl ⟨w.clipboard.written, owed, ?_, by simp⟩
          simp [take, SessionClipboard.read]
        | true =>
          rcases take_read_cases { w with phone := { w.phone with owed } } with ⟨-, hread⟩ | ⟨text, hclip, hpos, hmax, hne, hread⟩
          · cases (Option.some.inj hs).symm.trans hread
            exact .inl ⟨w.clipboard.written, owed, rfl, by simp⟩
          · cases (Option.some.inj hs).symm.trans hread
            exact .inr (.inr (.inr (.inr (.inr (.inr ⟨text, owed, .inr ⟨rfl, hwritten⟩, hclip, hpos, hmax, hne, rfl⟩)))))
  | focusRead =>
    rcases w.take_read_cases with ⟨hno, hread⟩ | ⟨text, hclip, hpos, hmax, hne, hread⟩
    · cases (Option.some.inj hs).symm.trans hread
      exact .inl ⟨w.clipboard.written, w.phone.owed, rfl, fun _ => hno⟩
    · cases (Option.some.inj hs).symm.trans hread
      exact .inr (.inr (.inr (.inr (.inr (.inr ⟨text, w.phone.owed, .inl rfl, hclip, hpos, hmax, hne, rfl⟩)))))

/-! ## Both sides as they were said to be -/

/-- The value written last, which is not readable yet if others are to come. -/
def newest (p : Phone) : Option Text := (p.coming.getLast?.map (·.2)).getD p.readable

/-- What is remembered is what was said last, and the clipboard comes to what was written last. -/
structure Steady (w : World) : Prop where
  synced : w.clipboard.forRemote = w.clipboard.lastSeen
  known : known w.log = w.clipboard.lastSeen
  newest : ∀ c, lastPut w.log = some c → newest w.phone = c.2

theorem Steady.put (h : w.Steady) (ours : Bool) (clip : Option Text) : (w.put ours clip).Steady where
  synced := h.synced
  known := (known_snoc w.log _).trans h.known
  newest c hc := by
    have hc' : lastPut (w.log ++ [.put ours clip]) = some c := hc
    rw [lastPut_snoc] at hc'
    cases hc'
    simp [World.newest, World.put]

theorem Steady.received (h : w.Steady) {clipboard : SessionClipboard} {text : Text} (hforRemote : clipboard.forRemote = some text)
    (hlastSeen : clipboard.lastSeen = some text) :
    Steady { w with clipboard, log := w.log ++ [.received text] } where
  synced := hforRemote.trans hlastSeen.symm
  known := (known_snoc w.log _).trans hlastSeen.symm
  newest c hc := h.newest c ((lastPut_snoc w.log _).symm.trans hc)

theorem steady_start (initial : Option Text) : (start .both initial).Steady := by
  rcases take_read_cases ⟨{}, ⟨initial, [], 0⟩, []⟩ with ⟨-, hread⟩ | ⟨text, -, -, -, -, hread⟩
  · rw [start, hread]
    exact ⟨rfl, rfl, by simp [lastPut]⟩
  · rw [start, hread]
    exact ⟨rfl, rfl, by simp [lastPut, Note.put?]⟩

theorem steady_step (h : w.Steady) (hs : w.step .both e = some w') : w'.Steady := by
  rcases step_cases hs with ⟨written, owed, rfl, -⟩ | ⟨text, accepted, -, -, hseen, rfl⟩ | ⟨text, -, -, rfl⟩ |
    ⟨text, -, -, rfl⟩ | ⟨clip, -, rfl⟩ | ⟨ours, clip, coming, -, hcoming, rfl⟩ | ⟨text, owed, -, -, -, -, -, rfl⟩
  · exact ⟨h.synced, h.known, h.newest⟩
  · exact h.received (h.synced.trans hseen) hseen
  · exact h.received rfl rfl
  · have hreceived : Steady ⟨⟨some text, some text, true⟩, w.phone, w.log ++ [.received text]⟩ := h.received rfl rfl
    exact hreceived.put true (some text)
  · exact h.put false clip
  · refine ⟨h.synced, h.known, fun c hc => ?_⟩
    rw [← h.newest c hc, World.newest, World.newest, hcoming]
    cases coming with
    | nil => rfl
    | cons => rw [List.getLast?_cons_cons, List.getLast?_eq_some_getLast (List.cons_ne_nil _ _)]; rfl
  · exact ⟨rfl, known_snoc w.log _, fun c hc => h.newest c ((lastPut_snoc w.log _).symm.trans hc)⟩

/-! ## No echo -/

/-- A write of ours cannot be read yet. -/
def Pending (p : Phone) : Prop := ∃ c ∈ p.coming, c.1 = true

instance (p : Phone) : Decidable (Pending p) := inferInstanceAs (Decidable (∃ c ∈ p.coming, _))

/-- The values from the last of our own writes on that cannot be read yet, or else from the readable one. -/
def ahead (clip : Option Text) : List (Bool × Option Text) → List (Option Text)
  | [] => [clip]
  | (ours, next) :: coming =>
    if ours || coming.any (·.1) then ahead next coming else clip :: next :: coming.map (·.2)

/-- The texts among these that a read takes. -/
def texts (clips : List (Option Text)) : List Text :=
  clips.filterMap fun clip => clip.filter fun text => 0 < text.length && text.length ≤ maxChars

/-- What is to be read after `text` is not of the remote, from where it is another text. -/
def Clear (w : World) (text : Option Text) : Prop :=
  ∀ other ∈ (texts (ahead w.phone.readable w.phone.coming)).dropWhile fun t => text == some t, ¬Received w.log other

/-- A read that finds something has all our writes readable, and a text of the remote's that is not written (as it is
refused, or is the last one seen) is followed on the clipboard by none of the remote's, itself included. -/
def Spares (w : World) : Event → Prop
  | .fromRemote text accepted =>
    ∀ t ∈ text, t ≠ [] → accepted = false ∨ w.clipboard.lastSeen = some t →
      ∀ other ∈ (texts (ahead w.phone.readable w.phone.coming)).dropWhile (fun u => some t == some u),
        other ≠ t ∧ ¬Received w.log other
  | .copy _ | .settle => True
  | .callback allowed =>
    allowed = true → w.clipboard.written = false → w.clipboard.Finds w.phone.readable → ¬Pending w.phone
  | .focusRead => w.clipboard.Finds w.phone.readable → ¬Pending w.phone

instance (w : World) : DecidablePred w.Spares
  | .fromRemote text accepted =>
    have : Decidable (∀ t ∈ text, t ≠ [] → accepted = false ∨ w.clipboard.lastSeen = some t →
        ∀ other ∈ (texts (ahead w.phone.readable w.phone.coming)).dropWhile (fun u => some t == some u),
          other ≠ t ∧ ¬Received w.log other) := Option.decidableForallMem _
    this
  | .copy _ | .settle => isTrue trivial
  | .callback _ | .focusRead => inferInstanceAs (Decidable (_ → _))

theorem ahead_of_not_any {clip : Option Text} {coming : List (Bool × Option Text)} (h : coming.any (·.1) = false) :
    ahead clip coming = clip :: coming.map (·.2) := by
  cases coming with
  | nil => rfl
  | cons c coming =>
    rw [List.any_cons] at h
    rw [ahead, h]
    rfl

theorem ahead_append_ours (clip next : Option Text) (coming : List (Bool × Option Text)) :
    ahead clip (coming ++ [(true, next)]) = [next] := by
  induction coming generalizing clip with
  | nil => rfl
  | cons c coming ih =>
    rw [List.cons_append, ahead, List.any_append]
    simpa using ih c.2

theorem ahead_append_local (clip next : Option Text) (coming : List (Bool × Option Text)) :
    ahead clip (coming ++ [(false, next)]) = ahead clip coming ++ [next] := by
  induction coming generalizing clip with
  | nil => rfl
  | cons c coming ih =>
    have hany : (coming ++ [(false, next)]).any (·.1) = coming.any (·.1) := by simp
    rw [List.cons_append, ahead, ahead, hany]
    split
    · exact ih c.2
    · simp

/-- What has become readable leaves the others as they were to be read. -/
theorem ahead_tail (clip next : Option Text) (ours : Bool) (coming : List (Bool × Option Text)) :
    ahead next coming = ahead clip ((ours, next) :: coming) ∨ ahead clip ((ours, next) :: coming) = clip :: ahead next coming := by
  by_cases hany : (ours || coming.any (·.1)) = true
  · rw [ahead, if_pos hany]
    exact .inl rfl
  · refine .inr ?_
    rw [ahead, if_neg hany]
    rw [Bool.not_eq_true, Bool.or_eq_false_iff] at hany
    rw [ahead_of_not_any hany.2]

theorem texts_cons (clip : Option Text) (clips : List (Option Text)) :
    texts (clip :: clips) = texts clips ∨ ∃ text, clip = some text ∧ texts (clip :: clips) = text :: texts clips := by
  unfold texts
  rw [List.filterMap_cons]
  split
  · exact .inl rfl
  · next text htext => exact .inr ⟨text, (Option.filter_eq_some_iff.1 htext).1, rfl⟩

/-- Of a list that begins with fewer, no more are left. -/
theorem mem_dropWhile_of_tail {p : Text → Bool} {text : Text} {l : List Text} {x : Text} (h : x ∈ l.dropWhile p) :
    x ∈ (text :: l).dropWhile p := by
  rw [List.dropWhile_cons]
  split
  · exact h
  · exact List.mem_cons_of_mem text ((List.dropWhile_sublist p).subset h)

theorem mem_dropWhile_append {p : Text → Bool} {l l' : List Text} {x : Text} (h : x ∈ (l ++ l').dropWhile p) :
    x ∈ l.dropWhile p ∨ x ∈ l' := by
  rw [List.dropWhile_append] at h
  split at h
  · exact .inr ((List.dropWhile_sublist p).subset h)
  · exact List.mem_append.1 h

/-- A clip that can be read no longer is not missed. -/
theorem Clear.tail {clips : List (Option Text)} {clip : Option Text} {p : Text → Bool} {x : Text}
    (h : x ∈ (texts clips).dropWhile p) : x ∈ (texts (clip :: clips)).dropWhile p := by
  rcases texts_cons clip clips with heq | ⟨text, -, heq⟩
  · rwa [heq]
  · rw [heq]
    exact mem_dropWhile_of_tail h

theorem clear_copy {text : Option Text} (h : w.Clear text) (clip : Option Text) : (w.put false clip).Clear text := by
  intro other hother
  have hlog : (w.put false clip).log = w.log ++ [.put false clip] := rfl
  have hahead : ahead (w.put false clip).phone.readable (w.put false clip).phone.coming =
      ahead w.phone.readable w.phone.coming ++ [clip] := ahead_append_local _ _ _
  rw [hlog, received_snoc]
  rw [hahead, texts, List.filterMap_append] at hother
  rintro (hnote | ⟨hrec, hne⟩)
  · cases hnote
  · rcases mem_dropWhile_append hother with hold | hnew
    · exact h other hold hrec
    · simp only [List.filterMap_cons, List.filterMap_nil] at hnew
      split at hnew
      · exact absurd hnew List.not_mem_nil
      · next t ht =>
        rw [List.mem_singleton.1 hnew, (Option.filter_eq_some_iff.1 ht).1] at hne
        exact hne rfl

/-- What is not the remote's is what is pushed, and the rest is as clear as it was. -/
theorem clear_step (h : w.Clear w.clipboard.lastSeen) (hc : w.Spares e) (hs : w.step .both e = some w') :
    w'.Clear w'.clipboard.lastSeen ∧ (NoEcho w.log → NoEcho w'.log) := by
  rcases step_cases hs with ⟨written, owed, rfl, -⟩ | ⟨text, accepted, rfl, hnil, hseen, rfl⟩ | ⟨text, rfl, hnil, rfl⟩ |
    ⟨text, -, -, rfl⟩ | ⟨clip, -, rfl⟩ | ⟨ours, clip, coming, -, hcoming, rfl⟩ | ⟨text, owed, hreads, hclip, hpos, hmax, hne, rfl⟩
  · exact ⟨h, id⟩
  · refine ⟨?_, fun hno => hno.snoc (by simp)⟩
    intro other hother
    rw [hseen] at hother
    obtain ⟨hne, hrec⟩ := hc text rfl hnil (.inr hseen) other hother
    rw [received_snoc]
    rintro (heq | ⟨hrec', -⟩)
    · cases heq
      exact hne rfl
    · exact hrec hrec'
  · refine ⟨?_, fun hno => hno.snoc (by simp)⟩
    intro other hother
    obtain ⟨hne, hrec⟩ := hc text rfl hnil (.inl rfl) other hother
    rw [received_snoc]
    rintro (heq | ⟨hrec', -⟩)
    · cases heq
      exact hne rfl
    · exact hrec hrec'
  · refine ⟨?_, fun hno => (hno.snoc (by simp)).snoc (by simp)⟩
    · intro other hother
      have hahead : ahead w.phone.readable (w.phone.coming ++ [(true, some text)]) = [some text] := ahead_append_ours _ _ _
      have hdrop : (texts [some text]).dropWhile (fun t => some text == some t) = [] := by
        rcases texts_cons (some text) [] with heq | ⟨t, ht, heq⟩
        · rw [heq]; rfl
        · cases ht
          rw [heq, List.dropWhile_cons, if_pos (by simp)]
          rfl
      have hother' : other ∈ (texts (ahead w.phone.readable (w.phone.coming ++ [(true, some text)]))).dropWhile
          (fun t => some text == some t) := hother
      rw [hahead, hdrop] at hother'
      exact absurd hother' List.not_mem_nil
  · exact ⟨clear_copy h clip, fun hno => hno.snoc (by simp)⟩
  · refine ⟨?_, id⟩
    intro other hother
    apply h other
    rw [hcoming]
    rcases ahead_tail w.phone.readable clip ours coming with heq | heq
    · rw [← heq]
      exact hother
    · rw [heq]
      exact Clear.tail hother
  · have hpending : ¬Pending w.phone := by
      have hfinds : w.clipboard.Finds w.phone.readable := ⟨text, hclip, hpos, hmax, hne⟩
      rcases hreads with rfl | ⟨rfl, hwritten⟩
      · exact hc hfinds
      · exact hc rfl hwritten hfinds
    have hany : w.phone.coming.any (·.1) = false := by
      rw [List.any_eq_false]
      intro c hcoming htrue
      exact hpending ⟨c, hcoming, htrue⟩
    have htexts : texts (ahead w.phone.readable w.phone.coming) = text :: texts (w.phone.coming.map (·.2)) := by
      rw [ahead_of_not_any hany, hclip, texts, List.filterMap_cons, Option.filter_some_pos (by simp [hpos, hmax])]
      rfl
    have hmine : ∀ other ∈ text :: texts (w.phone.coming.map (·.2)), ¬Received w.log other := by
      intro other hother
      apply h other
      rwa [htexts, List.dropWhile_cons, if_neg (by simpa using hne)]
    refine ⟨?_, fun hno => hno.snoc ?_⟩
    · intro other hother
      have hother' : other ∈ (texts (ahead w.phone.readable w.phone.coming)).dropWhile (fun t => some text == some t) := hother
      rw [htexts] at hother'
      rw [received_snoc]
      rintro (heq | ⟨hrec, -⟩)
      · cases heq
      · exact hmine other ((List.dropWhile_sublist _).subset hother') hrec
    · rintro other ⟨⟩
      exact hmine text List.mem_cons_self

theorem clear_start (initial : Option Text) :
    (start .both initial).Clear (start .both initial).clipboard.lastSeen ∧ NoEcho (start .both initial).log := by
  rcases take_read_cases ⟨{}, ⟨initial, [], 0⟩, []⟩ with ⟨-, hread⟩ | ⟨text, -, -, -, -, hread⟩
  · rw [start, hread]
    refine ⟨fun other _ => received_nil, ?_⟩
    intro pre text post heq
    cases pre <;> cases heq
  · rw [start, hread]
    refine ⟨fun other _ => ?_, ?_⟩
    · rw [received_snoc]
      rintro (heq | ⟨hrec, -⟩)
      · cases heq
      · exact received_nil hrec
    · intro pre other post heq
      cases pre with
      | nil => exact received_nil
      | cons note pre =>
        cases pre <;> cases heq

/-- In a run that spares the remote's texts nothing is echoed; and in any run, what was copied last is the text on both
sides once the clipboard is quiet and has been read. -/
theorem clipboard_no_echo (initial : Option Text) (events : List Event) (w : World)
    (hr : run (step .both) (start .both initial) events = some w) :
    (Meets (step .both) Spares (start .both initial) events →
      ∀ pre text post, w.log = pre ++ .pushed text :: post → ¬Received pre text) ∧
    ∀ pre text, events = pre ++ [.focusRead] → w.phone.coming = [] → w.phone.owed = 0 →
      lastPut w.log = some (false, some text) → 1 ≤ text.length → text.length ≤ maxChars →
      w.clipboard.current = some text ∧ known w.log = some text := by
  have hsteady : ∀ {events : List Event} {w : World}, run (step .both) (start .both initial) events = some w → w.Steady := by
    intro events w hr
    exact trace_inv_all (fun _ u => u.Steady) (steady_start initial) (fun _ u e u' h hs => steady_step h hs) hr
  refine ⟨?_, ?_⟩
  · intro hm
    have hclear : w.Clear w.clipboard.lastSeen ∧ NoEcho w.log := by
      refine trace_inv (fun _ u => u.Clear u.clipboard.lastSeen ∧ NoEcho u.log) (clear_start initial) ?_ hm hr
      rintro tr u e u' ⟨hclear, hno⟩ hc hs
      obtain ⟨hclear', hno'⟩ := clear_step hclear hc hs
      exact ⟨hclear', hno' hno⟩
    exact hclear.2
  · rintro pre text rfl hcoming - hput hpos hmax
    obtain ⟨u, hu, hlast⟩ := run_append_some hr
    obtain ⟨w', hs, hnil⟩ := run_cons_some hlast
    cases hnil
    have hw := hsteady hr
    have hreadable : w.phone.readable = some text := by
      have hnewest := hw.newest _ hput
      rwa [World.newest, hcoming] at hnewest
    have hseen : w.clipboard.lastSeen = some text := by
      have hafter := take_read_cases u
      have hw' : w = u.take (u.clipboard.read .both u.phone.readable) := (Option.some.inj hs).symm
      rcases hafter with ⟨hno, heq⟩ | ⟨text', hclip, -, -, -, heq⟩
      · rw [hw', heq] at hreadable ⊢
        by_contra hne
        exact hno ⟨text, hreadable, hpos, hmax, hne⟩
      · rw [hw', heq] at hreadable ⊢
        exact hclip.symm.trans hreadable
    exact ⟨hw.synced.trans hseen, hw.known.trans hseen⟩

/-- A text is copied on the remote and one on the phone, and the next of the remote's is refused. -/
def copies : List Event :=
  [.fromRemote (some [0x61]) true, .settle, .callback true, .copy (some [0x62]), .callback false, .settle, .focusRead,
    .fromRemote (some [0x63]) false, .focusRead]

theorem clipboard_no_echo_copies :
    ∃ w, run (step .both) (start .both none) copies = some w ∧
      (∀ pre text post, w.log = pre ++ .pushed text :: post → ¬Received pre text) ∧
      w.clipboard.current = some [0x62] ∧ known w.log = some [0x62] := by
  obtain ⟨w, hw, hcoming, howed, hput⟩ : ∃ w, run (step .both) (start .both none) copies = some w ∧ w.phone.coming = [] ∧
      w.phone.owed = 0 ∧ lastPut w.log = some (false, some [0x62]) := ⟨_, rfl, rfl, rfl, by decide⟩
  obtain ⟨hno, hlast⟩ := clipboard_no_echo none copies w hw
  exact ⟨w, hw, hno (by decide), hlast (copies.take 8) [0x62] rfl hcoming howed hput (by decide) (by decide)⟩

/-- Two texts are sent before the callback for the first: that callback is taken for both, and the one for the second reads the
first, which is pushed back. -/
theorem two_texts_echo :
    ∃ w, run (step .both) (start .both none)
        [.fromRemote (some [0x61]) true, .fromRemote (some [0x62]) true, .settle, .callback true, .callback true] = some w ∧
      ∃ pre, w.log = pre ++ [.pushed [0x61]] ∧ Received pre [0x61] := by
  refine ⟨_, rfl, [.received [0x61], .put true (some [0x61]), .received [0x62], .put true (some [0x62])], rfl, by decide⟩

end World

end Vento.Session
