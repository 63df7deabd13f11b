import Vento.Lib.Runs
import Vento.Linux.ClipboardTransfer
/-!
# Text from one window to another

Two windows and the X server between them: one owns the clipboard, the other reads it, and the events of each come to it in
order, whenever it gets to them. The owner goes on with all else meanwhile, with other requestors too.

`text_crosses`: what is read is the text, in one property or in as many chunks as it takes, in every order of steps.
-/

namespace Vento.Linux.Clipboard

open Vento.Lib Worker

/-! ## The two windows and the server -/

/-- `property` is the one that the reader has its selections put on, and `listening` whether the owner hears of its changes. -/
structure Desk where
  owner : Worker
  reader : Worker
  property : Option (Nat × List UInt8)
  listening : Bool
  toOwner : List Event
  toReader : List Event

namespace Desk

section Server

variable (A : Atoms) (now : Nat)

/-- The property is now this: who listens hears of it. -/
def changed (property : Option (Nat × List UInt8)) (d : Desk) : Desk :=
  let e := Event.propertyNotify d.reader.window (A.get .ventoClipboard) now property.isNone
  { d with property := property, toReader := d.toReader ++ [e], toOwner := if d.listening then d.toOwner ++ [e] else d.toOwner }

/-- What the server does for the reader. -/
def readerAsks (d : Desk) : Request → Desk
  | .convertSelection selection target property time =>
    if selection = A.get .clipboard then
      { d with toOwner := d.toOwner ++ [.selectionRequest ⟨d.reader.window, selection, target, property, time⟩] }
    else d
  | .deleteProperty property => if property = A.get .ventoClipboard ∧ d.property.isSome then d.changed A now none else d
  | .takeProperty property => if property = A.get .ventoClipboard ∧ d.property.isSome then d.changed A now none else d
  | _ => d

/-- What it does for the owner. -/
def ownerAsks (d : Desk) : Request → Desk
  | .changeProperty window property type data =>
    if window = d.reader.window ∧ property = A.get .ventoClipboard then d.changed A now (some (type, data)) else d
  | .notify requestor selection target property _ =>
    if requestor = d.reader.window then
      { d with toReader := d.toReader ++ [.selectionNotify requestor selection target property] }
    else d
  | .listen window on => if window = d.reader.window then { d with listening := on } else d
  | _ => d

def ownerActs (a : Act × Reply) (d : Desk) : Desk :=
  let w := d.owner.step A a
  (w.requests.drop d.owner.requests.length).foldl (ownerAsks A a.2.now) { d with owner := w }

def readerActs (a : Act × Reply) (d : Desk) : Desk :=
  let w := d.reader.step A a
  (w.requests.drop d.reader.requests.length).foldl (readerAsks A a.2.now) { d with reader := w }

end Server

/-- One of them gets to its next event, or the owner does something else. -/
inductive Move
  | owner (reply : Reply)
  | reader (reply : Reply)
  | other (a : Act × Reply)

def step (A : Atoms) (d : Desk) : Move → Option Desk
  | .owner reply =>
    match d.toOwner with
    | [] => none
    | e :: rest => some (ownerActs A (.event e, { reply with sent := true }) { d with toOwner := rest })
  | .reader reply =>
    match d.toReader with
    | [] => none
    | e :: rest =>
      let property := d.property.map fun p => (p.1, p.2, false)
      some (readerActs A (.event e, { reply with property := property }) { d with toReader := rest })
  | .other a => some (ownerActs A a d)

/-- The reader has not been told what there is, or the owner has yet to give it the text. -/
def Asking (d : Desk) : Prop :=
  (∃ rd, d.reader.reading = some rd ∧ rd.step = .targets) ∨ ∃ e, Event.selectionRequest e ∈ d.toOwner

/-- What else the owner does has nothing to do with the reader, and it has the text until it has given it. -/
def Allowed (A : Atoms) (d : Desk) : Move → Prop
  | .other a => Spares d.reader.window d.owner a ∧ (d.Asking → HoldsOn A d.owner a.1)
  | _ => True

end Desk

/-! ## What is on its way -/

/-- The queue has what is expected in order, and else only what there is nothing to do about. -/
inductive Amid {α : Type} (stale : α → Prop) : List α → List (α → Prop) → Prop
  | nil : Amid stale [] []
  | stale {a : α} {as : List α} {Ps : List (α → Prop)} : stale a → Amid stale as Ps → Amid stale (a :: as) Ps
  | cons {a : α} {as : List α} {P : α → Prop} {Ps : List (α → Prop)} : P a → Amid stale as Ps → Amid stale (a :: as) (P :: Ps)

namespace Amid

variable {α : Type} {stale : α → Prop} {a : α} {as as' : List α} {P : α → Prop} {Ps Ps' : List (α → Prop)}

theorem append (h : Amid stale as Ps) (h' : Amid stale as' Ps') : Amid stale (as ++ as') (Ps ++ Ps') := by
  induction h with
  | nil => exact h'
  | stale ha _ ih => exact .stale ha ih
  | cons ha _ ih => exact .cons ha ih

theorem snoc_stale (h : Amid stale as Ps) (ha : stale a) : Amid stale (as ++ [a]) Ps := by
  have := h.append (.stale ha .nil)
  rwa [List.append_nil] at this

theorem snoc (h : Amid stale as Ps) (ha : P a) : Amid stale (as ++ [a]) (Ps ++ [P]) := h.append (.cons ha .nil)

theorem uncons (h : Amid stale (a :: as) Ps) :
    (stale a ∧ Amid stale as Ps) ∨ ∃ P Ps', Ps = P :: Ps' ∧ P a ∧ Amid stale as Ps' := by
  cases h with
  | stale ha h => exact .inl ⟨ha, h⟩
  | cons ha h => exact .inr ⟨_, _, rfl, ha, h⟩

theorem eq_nil (h : Amid stale [] Ps) : Ps = [] := by
  cases h
  rfl

end Amid

/-! ## How far the text has come -/

/-- `heard`: the reader has had the news of the property, though not of the selection. `off` is how much of the text the reader
has, and `type` what the last of it came as. -/
inductive Phase
  | targetsAsked
  | targetsGiven (heard : Bool)
  | textAsked
  | textGiven (heard : Bool)
  | incrGiven (heard : Bool)
  | taken (off type : Nat)
  | given (off type : Nat)
  | last
  | settled

section Phases

variable (A : Atoms) (r n : Nat) (text : Str) (rd : Reading) (before : List Answered)

/-- The notification of the property of the reader's. -/
def Noted (deleted : Bool) (e : Event) : Prop := ∃ time, e = .propertyNotify r (A.get .ventoClipboard) time deleted

def notice (target : Name) : Event := .selectionNotify r (A.get .clipboard) (A.get target) (A.get .ventoClipboard)

def coming (heard : Bool) (target : Name) : List (Event → Prop) :=
  (if heard then [] else [Noted A r false]) ++ [fun e => e = notice A r target]

namespace Phase

def rank : Phase → Nat
  | targetsAsked => 2 * (encode text .utf8).length + 8
  | targetsGiven _ => 2 * (encode text .utf8).length + 7
  | textAsked => 2 * (encode text .utf8).length + 6
  | textGiven _ => 1
  | incrGiven _ => 2 * (encode text .utf8).length + 5
  | taken off _ => 2 * ((encode text .utf8).length - off) + 4
  | given off _ => 2 * ((encode text .utf8).length - off) + 3
  | last => 1
  | settled => 0

def Ok : Phase → Prop
  | textGiven _ => (encode text .utf8).length ≤ n
  | incrGiven _ => n < (encode text .utf8).length
  | taken off type => n < (encode text .utf8).length ∧ off ≤ (encode text .utf8).length ∧ (off = 0 ∨ type = A.get .utf8String)
  | given off type => n < (encode text .utf8).length ∧ off ≤ (encode text .utf8).length ∧ (off = 0 ∨ type = A.get .utf8String)
  | _ => True

/-- Where the read is, until there is an answer. -/
def reading : Phase → Option (Step × Name)
  | targetsAsked => some (.targets, .targets)
  | targetsGiven _ => some (.targets, .targets)
  | textAsked => some (.data, .utf8String)
  | textGiven _ => some (.data, .utf8String)
  | incrGiven _ => some (.data, .utf8String)
  | taken off type => some (.incr type ((encode text .utf8).take off), .utf8String)
  | given off type => some (.incr type ((encode text .utf8).take off), .utf8String)
  | last => none
  | settled => none

def property : Phase → Option (Nat × List UInt8)
  | targetsGiven _ => some (atomType, targetsBytes A)
  | textGiven _ => some (A.get .utf8String, encode text .utf8)
  | incrGiven _ => some (A.get .incr, toLeBytes 4 (encode text .utf8).length)
  | given off _ => some (A.get .utf8String, ((encode text .utf8).drop off).take n)
  | _ => none

def listening : Phase → Bool
  | incrGiven _ => true
  | taken _ _ => true
  | given _ _ => true
  | last => true
  | _ => false

/-- How far the transfer is, and whether it has ended. -/
def sends : Phase → Option (Nat × Bool)
  | incrGiven _ => some (0, false)
  | taken off _ => some (off, false)
  | given off _ =>
    let last := min (off + n) (encode text .utf8).length
    some (last, off = last)
  | last => some ((encode text .utf8).length, true)
  | _ => none

def early : Phase → Bool
  | targetsAsked => true
  | targetsGiven _ => true
  | textAsked => true
  | _ => false

def toOwner : Phase → List (Event → Prop)
  | targetsAsked => [fun e => e = .selectionRequest (asksFor A r .targets)]
  | textAsked => [fun e => e = .selectionRequest (asksFor A r .utf8String)]
  | taken _ _ => [Noted A r true]
  | last => [Noted A r true]
  | _ => []

def toReader : Phase → List (Event → Prop)
  | targetsGiven heard => coming A r heard .targets
  | textGiven heard => coming A r heard .utf8String
  | incrGiven heard => coming A r heard .utf8String
  | given _ _ => [Noted A r false]
  | _ => []

end Phase

def transfer (s : Nat × Bool) (progressAt : Nat) : Sending :=
  ⟨r, A.get .ventoClipboard, A.get .utf8String, encode text .utf8, s.1, s.2, progressAt⟩

/-- The reader's side of a phase. -/
def Here (w : Worker) : Option (Step × Name) → Prop
  | some (step, target) => Reads A rd before step target w
  | none => HasRead rd before text w

/-- Everything in a phase. -/
structure Phase.At (p : Phase) (d : Desk) : Prop where
  ok : p.Ok A n text
  reader : d.reader.window = r
  owner : r ≠ d.owner.window
  chunk : d.owner.chunk = n
  here : Here A text rd before d.reader (p.reading text)
  property : d.property = p.property A n text
  listening : d.listening = p.listening
  sending : ∃ progressAt, sendingTo r d.owner = ((p.sends n text).map fun s => transfer A r text s progressAt).toList
  owned : p.early = true → ∃ owned, d.owner.owned = some owned ∧ owned.text = text
  toOwner : Amid (Noted A r false) d.toOwner (p.toOwner A r)
  toReader : Amid (Noted A r true) d.toReader (p.toReader A r)

/-- At most as many events come to anyone from now on. -/
def Phase.left (p : Phase) (d : Desk) : Nat := 4 * p.rank text + d.toOwner.length + d.toReader.length

/-- On to a later phase, or to fewer events. -/
def Phase.Leads (p : Phase) (d d' : Desk) : Prop :=
  ∃ p' : Phase, p'.At A r n text rd before d' ∧ p'.left text d' < p.left text d

end Phases

namespace Desk

variable {A : Atoms} {r n : Nat} {text : Str} {rd : Reading} {before : List Answered} {d : Desk}

theorem ownerActs_eq {a : Act × Reply} {asked : List Request} {sending : List Sending}
    (h : Gives r d.owner (d.owner.step A a) asked sending) :
    d.ownerActs A a = asked.foldl (ownerAsks A a.2.now) { d with owner := d.owner.step A a } := by
  rw [ownerActs, h.requests, List.drop_left]

theorem readerActs_eq {a : Act × Reply} {asked : List Request} (h : Wants d.reader (d.reader.step A a) asked) :
    d.readerActs A a = asked.foldl (readerAsks A a.2.now) { d with reader := d.reader.step A a } := by
  rw [readerActs, h.requests, List.drop_left]

/-! ### The owner's events -/

/-- A phase that the owner's step leads to, the reader being where it was. -/
theorem at_gives {p : Phase} (p' : Phase) (h : p.At A r n text rd before d) {w : Worker} {asked : List Request} {sending : List Sending}
    (hgives : Gives r d.owner w asked sending) (hok : p'.Ok A n text) (hreading : p'.reading text = p.reading text)
    (hsending : ∃ progressAt, sending = ((p'.sends n text).map fun s => transfer A r text s progressAt).toList)
    (hearly : p'.early = true → p.early = true) {toOwner toReader : List Event}
    (htoOwner : Amid (Noted A r false) toOwner (p'.toOwner A r)) (htoReader : Amid (Noted A r true) toReader (p'.toReader A r)) :
    p'.At A r n text rd before ⟨w, d.reader, p'.property A n text, p'.listening, toOwner, toReader⟩ where
  ok := hok
  reader := h.reader
  owner := by rw [hgives.window]; exact h.owner
  chunk := hgives.chunk.trans h.chunk
  here := by rw [hreading]; exact h.here
  property := rfl
  listening := rfl
  sending := by rw [hgives.sending]; exact hsending
  owned he := by rw [hgives.owned]; exact h.owned (hearly he)
  toOwner := htoOwner
  toReader := htoReader

section Owner

variable {e : Event} {rest : List Event} (hqueue : d.toOwner = e :: rest) (reply : Reply)
include hqueue

theorem owner_stale {p : Phase} (h : p.At A r n text rd before d) (he : Noted A r false e)
    (hrest : Amid (Noted A r false) rest (p.toOwner A r)) :
    p.Leads A r n text rd before d (ownerActs A (.event e, { reply with sent := true }) { d with toOwner := rest }) := by
  obtain ⟨time, rfl⟩ := he
  have hgives := gives_nothing A { reply with sent := true } h.owner (A.get .ventoClipboard) time
  rw [ownerActs_eq (d := { d with toOwner := rest }) hgives, List.foldl_nil, h.property, h.listening]
  refine ⟨p, at_gives p h hgives h.ok rfl h.sending id hrest h.toReader, ?_⟩
  simp [Phase.left, hqueue]

theorem owner_targets (h : Phase.targetsAsked.At A r n text rd before d) (he : e = .selectionRequest (asksFor A r .targets))
    (hrest : Amid (Noted A r false) rest []) :
    Phase.targetsAsked.Leads A r n text rd before d
      (ownerActs A (.event e, { reply with sent := true }) { d with toOwner := rest }) := by
  subst he
  obtain ⟨owned, howned, htext⟩ := h.owned rfl
  have hgives := gives_targets A (r := r) { reply with sent := true } rfl howned
  have hlistening : d.listening = false := h.listening
  rw [ownerActs_eq (d := { d with toOwner := rest }) hgives]
  simp only [List.foldl_cons, List.foldl_nil, ownerAsks, answersTo, changed, h.reader, and_self, if_true, hlistening,
    Bool.false_eq_true, if_false, Option.isNone_some]
  refine ⟨.targetsGiven false, at_gives (.targetsGiven false) h hgives trivial rfl h.sending id hrest ((h.toReader.snoc ⟨_, rfl⟩).snoc rfl), ?_⟩
  simp [Phase.left, Phase.rank, hqueue]
  omega

theorem owner_text (h : Phase.textAsked.At A r n text rd before d) (he : e = .selectionRequest (asksFor A r .utf8String))
    (hrest : Amid (Noted A r false) rest []) :
    Phase.textAsked.Leads A r n text rd before d
      (ownerActs A (.event e, { reply with sent := true }) { d with toOwner := rest }) := by
  subst he
  obtain ⟨owned, howned, rfl⟩ := h.owned rfl
  have hlistening : d.listening = false := h.listening
  have hsending : sendingTo r d.owner = [] := by
    obtain ⟨_, hsending⟩ := h.sending
    exact hsending
  by_cases hlen : (encode owned.text .utf8).length ≤ n
  · have hgives := gives_text A (r := r) { reply with sent := true } rfl howned (by rw [h.chunk]; exact hlen)
    rw [ownerActs_eq (d := { d with toOwner := rest }) hgives]
    simp only [List.foldl_cons, List.foldl_nil, ownerAsks, answersTo, changed, h.reader, and_self, if_true, hlistening,
      Bool.false_eq_true, if_false, Option.isNone_some]
    refine ⟨.textGiven false, at_gives (.textGiven false) h hgives hlen rfl h.sending nofun hrest ((h.toReader.snoc ⟨_, rfl⟩).snoc rfl), ?_⟩
    simp [Phase.left, Phase.rank, hqueue]
    omega
  · have hgives := gives_incr A (r := r) { reply with sent := true } rfl howned (by rw [h.chunk]; exact hlen) hsending
    rw [ownerActs_eq (d := { d with toOwner := rest }) hgives]
    simp only [List.foldl_cons, List.foldl_nil, ownerAsks, answersTo, changed, h.reader, and_self, if_true, Option.isNone_some]
    refine ⟨.incrGiven false, at_gives (.incrGiven false) h hgives (Nat.lt_of_not_le hlen) rfl ⟨_, rfl⟩ nofun (hrest.snoc_stale ⟨_, rfl⟩)
      ((h.toReader.snoc ⟨_, rfl⟩).snoc rfl), ?_⟩
    simp [Phase.left, Phase.rank, hqueue]
    omega

theorem owner_chunk {off type : Nat} (h : (Phase.taken off type).At A r n text rd before d) (he : Noted A r true e)
    (hrest : Amid (Noted A r false) rest []) :
    (Phase.taken off type).Leads A r n text rd before d
      (ownerActs A (.event e, { reply with sent := true }) { d with toOwner := rest }) := by
  obtain ⟨time, rfl⟩ := he
  obtain ⟨progressAt, hsending⟩ := h.sending
  have hgives := gives_chunk A { reply with sent := true } h.owner hsending rfl rfl time
  have hlistening : d.listening = true := h.listening
  rw [ownerActs_eq (d := { d with toOwner := rest }) hgives]
  simp only [List.foldl_cons, List.foldl_nil, ownerAsks, changed, h.reader, and_self, if_true, hlistening, Option.isNone_some,
    h.chunk]
  rw [h.chunk] at hgives
  refine ⟨.given off type, at_gives (.given off type) h hgives h.ok rfl ⟨_, rfl⟩ nofun (hrest.snoc_stale ⟨_, rfl⟩) (h.toReader.snoc ⟨_, rfl⟩), ?_⟩
  simp [Phase.left, Phase.rank, hqueue]
  omega

theorem owner_last (h : Phase.last.At A r n text rd before d) (he : Noted A r true e) (hrest : Amid (Noted A r false) rest []) :
    Phase.last.Leads A r n text rd before d
      (ownerActs A (.event e, { reply with sent := true }) { d with toOwner := rest }) := by
  obtain ⟨time, rfl⟩ := he
  obtain ⟨progressAt, hsending⟩ := h.sending
  have hproperty : d.property = none := h.property
  have hgives := gives_last A { reply with sent := true } h.owner hsending rfl rfl time
  rw [ownerActs_eq (d := { d with toOwner := rest }) hgives]
  simp only [List.foldl_cons, List.foldl_nil, ownerAsks, h.reader, if_true, hproperty]
  refine ⟨.settled, at_gives .settled h hgives trivial rfl ⟨0, rfl⟩ nofun hrest h.toReader, ?_⟩
  simp [Phase.left, Phase.rank, hqueue]
  omega

/-- The owner gets to its next event. -/
theorem owner_leads {p : Phase} (h : p.At A r n text rd before d) :
    p.Leads A r n text rd before d (ownerActs A (.event e, { reply with sent := true }) { d with toOwner := rest }) := by
  have htoOwner := h.toOwner
  rw [hqueue] at htoOwner
  rcases htoOwner.uncons with ⟨he, hrest⟩ | ⟨P, Ps, hp, he, hrest⟩
  · exact owner_stale hqueue reply h he hrest
  · cases p with
    | targetsAsked =>
      cases hp
      exact owner_targets hqueue reply h he hrest
    | textAsked =>
      cases hp
      exact owner_text hqueue reply h he hrest
    | taken off type =>
      cases hp
      exact owner_chunk hqueue reply h he hrest
    | last =>
      cases hp
      exact owner_last hqueue reply h he hrest
    | targetsGiven heard => cases hp
    | textGiven heard => cases hp
    | incrGiven heard => cases hp
    | given off type => cases hp
    | settled => cases hp

end Owner

/-! ### The reader's events -/

/-- A phase that the reader's step leads to, the owner being where it was. -/
theorem at_wants {p : Phase} (p' : Phase) (h : p.At A r n text rd before d) {w : Worker} {asked : List Request}
    (hwants : Wants d.reader w asked) (hhere : Here A text rd before w (p'.reading text)) (hok : p'.Ok A n text)
    (hsends : p'.sends n text = p.sends n text) (hearly : p'.early = true → p.early = true) {toOwner toReader : List Event}
    (htoOwner : Amid (Noted A r false) toOwner (p'.toOwner A r)) (htoReader : Amid (Noted A r true) toReader (p'.toReader A r)) :
    p'.At A r n text rd before ⟨d.owner, w, p'.property A n text, p'.listening, toOwner, toReader⟩ where
  ok := hok
  reader := hwants.window.trans h.reader
  owner := h.owner
  chunk := h.chunk
  here := hhere
  property := rfl
  listening := rfl
  sending := by rw [hsends]; exact h.sending
  owned he := h.owned (hearly he)
  toOwner := htoOwner
  toReader := htoReader

theorem here_tick {w : Worker} {reading : Option (Step × Name)} (h : Here A text rd before w reading) :
    Here A text rd before { w with clock := w.clock + 1 } reading := by
  cases reading with
  | none => exact ⟨h.reading, h.answers⟩
  | some reading => exact ⟨h.reading, h.queued, h.answers⟩

section Reader

variable {e : Event} {rest : List Event} (hqueue : d.toReader = e :: rest) (reply : Reply)
include hqueue

/-- A notification that is not for the read where it is. -/
theorem reader_noted {p : Phase} (p' : Phase) (h : p.At A r n text rd before d) {deleted : Bool} (he : Noted A r deleted e)
    (hno : deleted = false → ∀ t buf, d.reader.reading.map Reading.step ≠ some (.incr t buf)) (hok : p'.Ok A n text)
    (hreading : p'.reading text = p.reading text) (hproperty : p'.property A n text = p.property A n text)
    (hlistening : p'.listening = p.listening) (hsends : p'.sends n text = p.sends n text) (hearly : p'.early = p.early)
    (htoOwner : p'.toOwner A r = p.toOwner A r) (hrank : p'.rank text = p.rank text)
    (hrest : Amid (Noted A r true) rest (p'.toReader A r)) :
    p.Leads A r n text rd before d
      (readerActs A (.event e, { reply with property := d.property.map fun p => (p.1, p.2, false) }) { d with toReader := rest }) := by
  obtain ⟨time, rfl⟩ := he
  have hstep := step_noted A { reply with property := d.property.map fun p => (p.1, p.2, false) } h.reader deleted hno time
  have hwants : Wants d.reader (d.reader.step A (.event (.propertyNotify r (A.get .ventoClipboard) time deleted),
      { reply with property := d.property.map fun p => (p.1, p.2, false) })) [] := by
    rw [hstep]
    exact ⟨rfl, (List.append_nil _).symm⟩
  rw [readerActs_eq (d := { d with toReader := rest }) hwants, List.foldl_nil, hstep, h.property, h.listening, ← hproperty,
    ← hlistening]
  rw [hstep] at hwants
  have hhere := here_tick h.here
  rw [← hreading] at hhere
  have htoOwner' := h.toOwner
  rw [← htoOwner] at htoOwner'
  refine ⟨p', at_wants p' h hwants hhere hok hsends (fun he => hearly ▸ he) htoOwner' hrest, ?_⟩
  simp [Phase.left, hrank, hqueue]

theorem reader_targets (h : (Phase.targetsGiven true).At A r n text rd before d) (he : e = notice A r .targets)
    (hrest : Amid (Noted A r true) rest []) :
    (Phase.targetsGiven true).Leads A r n text rd before d
      (readerActs A (.event e, { reply with property := d.property.map fun p => (p.1, p.2, false) }) { d with toReader := rest }) := by
  subst he
  have hproperty : d.property = some (atomType, targetsBytes A) := h.property
  have hlistening : d.listening = false := h.listening
  obtain ⟨hwants, hreads⟩ := targets_come A { reply with property := d.property.map fun p => (p.1, p.2, false) } h.reader
    h.here (show 0 < atomType by decide) (by rw [hproperty]; rfl)
  rw [notice, readerActs_eq (d := { d with toReader := rest }) hwants]
  generalize d.reader.step A _ = w at hwants hreads ⊢
  have hw : w.window = r := hwants.window.trans h.reader
  simp only [List.foldl_cons, List.foldl_nil, readerAsks, changed, hproperty, Option.isSome_some, and_self, if_true, hlistening,
    Bool.false_eq_true, if_false, Option.isNone_none, hw]
  refine ⟨.textAsked, at_wants .textAsked h hwants hreads trivial rfl (fun _ => rfl) (h.toOwner.snoc rfl)
    (hrest.snoc_stale ⟨_, rfl⟩), ?_⟩
  simp [Phase.left, Phase.rank, hqueue]
  omega

theorem reader_text (h : (Phase.textGiven true).At A r n text rd before d) (he : e = notice A r .utf8String)
    (hrest : Amid (Noted A r true) rest []) :
    (Phase.textGiven true).Leads A r n text rd before d
      (readerActs A (.event e, { reply with property := d.property.map fun p => (p.1, p.2, false) }) { d with toReader := rest }) := by
  subst he
  have hproperty : d.property = some (A.get .utf8String, encode text .utf8) := h.property
  have hlistening : d.listening = false := h.listening
  obtain ⟨hwants, hread⟩ := text_comes A { reply with property := d.property.map fun p => (p.1, p.2, false) } h.reader
    h.here (by rw [hproperty]; rfl)
  rw [notice, readerActs_eq (d := { d with toReader := rest }) hwants]
  generalize d.reader.step A _ = w at hwants hread ⊢
  have hw : w.window = r := hwants.window.trans h.reader
  simp only [List.foldl_cons, List.foldl_nil, readerAsks, changed, hproperty, Option.isSome_some, Option.isSome_none, and_self,
    if_true, hlistening, Bool.false_eq_true, and_false, if_false, Option.isNone_none, hw]
  refine ⟨.settled, at_wants .settled h hwants hread trivial rfl nofun h.toOwner (hrest.snoc_stale ⟨_, rfl⟩), ?_⟩
  simp [Phase.left, Phase.rank, hqueue]

theorem reader_incr (h : (Phase.incrGiven true).At A r n text rd before d) (he : e = notice A r .utf8String)
    (hrest : Amid (Noted A r true) rest []) :
    (Phase.incrGiven true).Leads A r n text rd before d
      (readerActs A (.event e, { reply with property := d.property.map fun p => (p.1, p.2, false) }) { d with toReader := rest }) := by
  subst he
  have hproperty : d.property = some (A.get .incr, toLeBytes 4 (encode text .utf8).length) := h.property
  have hlistening : d.listening = true := h.listening
  obtain ⟨hwants, hreads⟩ := incr_comes A { reply with property := d.property.map fun p => (p.1, p.2, false) } h.reader
    h.here (by rw [hproperty]; rfl)
  rw [notice, readerActs_eq (d := { d with toReader := rest }) hwants]
  generalize d.reader.step A _ = w at hwants hreads ⊢
  have hw : w.window = r := hwants.window.trans h.reader
  simp only [List.foldl_cons, List.foldl_nil, readerAsks, changed, hproperty, Option.isSome_some, and_self, if_true, hlistening,
    Option.isNone_none, hw]
  refine ⟨.taken 0 0, at_wants (.taken 0 0) h hwants hreads ⟨h.ok, Nat.zero_le _, .inl rfl⟩ rfl nofun (h.toOwner.snoc ⟨_, rfl⟩)
    (hrest.snoc_stale ⟨_, rfl⟩), ?_⟩
  simp [Phase.left, Phase.rank, hqueue]
  omega

theorem reader_chunk (hn : 0 < n) (hmax : (encode text .utf8).length ≤ maxText) {off type : Nat}
    (h : (Phase.given off type).At A r n text rd before d) (he : Noted A r false e) (hrest : Amid (Noted A r true) rest []) :
    (Phase.given off type).Leads A r n text rd before d
      (readerActs A (.event e, { reply with property := d.property.map fun p => (p.1, p.2, false) }) { d with toReader := rest }) := by
  obtain ⟨time, rfl⟩ := he
  have hproperty : d.property = some (A.get .utf8String, ((encode text .utf8).drop off).take n) := h.property
  have hlistening : d.listening = true := h.listening
  obtain ⟨hlong, hoff, htype⟩ := h.ok
  by_cases hend : off = (encode text .utf8).length
  · -- The empty chunk: the text is all there.
    have hbytes : ((encode text .utf8).drop off).take n = [] := by simp [hend]
    obtain ⟨hwants, hread⟩ := chunks_end A { reply with property := d.property.map fun p => (p.1, p.2, false) } h.reader
      h.here (A.get_pos .utf8String) (by rw [hproperty, hbytes]; rfl) time
    have hall : type = A.get .utf8String := htype.resolve_left (by omega)
    rw [hall, A.name_get, hend, List.take_length, decode_encode] at hread
    rw [readerActs_eq (d := { d with toReader := rest }) hwants]
    generalize d.reader.step A _ = w at hwants hread ⊢
    have hw : w.window = r := hwants.window.trans h.reader
    simp only [List.foldl_cons, List.foldl_nil, readerAsks, changed, hproperty, Option.isSome_some, Option.isSome_none, and_self,
      if_true, hlistening, Bool.false_eq_true, and_false, if_false, Option.isNone_none, hw]
    have hsends : Phase.last.sends n text = (Phase.given off type).sends n text := by
      simp [Phase.sends, hend]
    refine ⟨.last, at_wants .last h hwants hread trivial hsends nofun (h.toOwner.snoc ⟨_, rfl⟩) (hrest.snoc_stale ⟨_, rfl⟩), ?_⟩
    simp [Phase.left, Phase.rank, hqueue]
    omega
  · have hlt : off < (encode text .utf8).length := by omega
    have hnext : (encode text .utf8).take off ++ ((encode text .utf8).drop off).take n =
        (encode text .utf8).take (min (off + n) (encode text .utf8).length) := by
      rw [← List.take_add, List.take_eq_take_min]
    have hbytes : ((encode text .utf8).drop off).take n ≠ [] := by
      refine List.ne_nil_of_length_pos ?_
      rw [List.length_take, List.length_drop]
      omega
    have hlen : ((encode text .utf8).take off ++ ((encode text .utf8).drop off).take n).length ≤ maxText := by
      rw [hnext]
      exact (List.length_take_le' _ _).trans hmax
    obtain ⟨hwants, hreads⟩ := chunk_comes A { reply with property := d.property.map fun p => (p.1, p.2, false) } h.reader
      h.here (A.get_pos .utf8String) (by rw [hproperty]; rfl) hbytes hlen time
    rw [hnext] at hreads
    rw [readerActs_eq (d := { d with toReader := rest }) hwants]
    generalize d.reader.step A _ = w at hwants hreads ⊢
    have hw : w.window = r := hwants.window.trans h.reader
    simp only [List.foldl_cons, List.foldl_nil, readerAsks, changed, hproperty, Option.isSome_some, and_self, if_true, hlistening,
      Option.isNone_none, hw]
    have hsends : (Phase.taken (min (off + n) (encode text .utf8).length) (A.get .utf8String)).sends n text =
        (Phase.given off type).sends n text := by
      have hne : off ≠ min (off + n) (encode text .utf8).length := by omega
      simp [Phase.sends, hne]
    refine ⟨.taken (min (off + n) (encode text .utf8).length) (A.get .utf8String), at_wants (.taken _ _) h hwants hreads
      ⟨hlong, Nat.min_le_right _ _, .inr rfl⟩ hsends nofun (h.toOwner.snoc ⟨_, rfl⟩) (hrest.snoc_stale ⟨_, rfl⟩), ?_⟩
    simp [Phase.left, Phase.rank, hqueue]
    omega

/-- The reader gets to its next event. -/
theorem reader_leads (hn : 0 < n) (hmax : (encode text .utf8).length ≤ maxText) {p : Phase} (h : p.At A r n text rd before d) :
    p.Leads A r n text rd before d
      (readerActs A (.event e, { reply with property := d.property.map fun p => (p.1, p.2, false) }) { d with toReader := rest }) := by
  have htoReader := h.toReader
  rw [hqueue] at htoReader
  rcases htoReader.uncons with ⟨he, hrest⟩ | ⟨P, Ps, hp, he, hrest⟩
  · exact reader_noted hqueue reply p h he nofun h.ok rfl rfl rfl rfl rfl rfl rfl hrest
  · have hhere := h.here
    cases p with
    | targetsGiven heard =>
      cases heard with
      | false =>
        cases hp
        refine reader_noted hqueue reply (.targetsGiven true) h he (fun _ t buf => ?_) h.ok rfl rfl rfl rfl rfl rfl rfl hrest
        rw [Reads.reading hhere]
        nofun
      | true =>
        cases hp
        exact reader_targets hqueue reply h he hrest
    | textGiven heard =>
      cases heard with
      | false =>
        cases hp
        refine reader_noted hqueue reply (.textGiven true) h he (fun _ t buf => ?_) h.ok rfl rfl rfl rfl rfl rfl rfl hrest
        rw [Reads.reading hhere]
        nofun
      | true =>
        cases hp
        exact reader_text hqueue reply h he hrest
    | incrGiven heard =>
      cases heard with
      | false =>
        cases hp
        refine reader_noted hqueue reply (.incrGiven true) h he (fun _ t buf => ?_) h.ok rfl rfl rfl rfl rfl rfl rfl hrest
        rw [Reads.reading hhere]
        nofun
      | true =>
        cases hp
        exact reader_incr hqueue reply h he hrest
    | given off type =>
      cases hp
      exact reader_chunk hqueue reply hn hmax h he hrest
    | targetsAsked => cases hp
    | textAsked => cases hp
    | taken off type => cases hp
    | last => cases hp
    | settled => cases hp

end Reader

/-! ### What else the owner does -/

theorem ownerAsks_apart (hr : d.reader.window = r) (now : Nat) {q : Request} (hq : ¬Request.Concerns r q) :
    d.ownerAsks A now q = d := by
  cases q with
  | changeProperty window property type data => exact if_neg fun hw => hq (hw.1.trans hr)
  | notify requestor selection target property time => exact if_neg fun hw => hq (hw.trans hr)
  | listen window on => exact if_neg fun hw => hq (hw.trans hr)
  | convertSelection selection target property time => rfl
  | setSelectionOwner selection time => rfl
  | appendProperty property => rfl
  | deleteProperty property => rfl
  | takeProperty property => rfl

theorem foldl_apart (hr : d.reader.window = r) (now : Nat) {asked : List Request} (h : ∀ q ∈ asked, ¬Request.Concerns r q) :
    asked.foldl (ownerAsks A now) d = d := by
  induction asked with
  | nil => rfl
  | cons q asked ih =>
    obtain ⟨hq, h⟩ := List.forall_mem_cons.1 h
    rw [List.foldl_cons, ownerAsks_apart hr now hq, ih h]

theorem ownerActs_apart {a : Act × Reply} (hr : d.reader.window = r) (h : Apart r d.owner (d.owner.step A a)) :
    d.ownerActs A a = { d with owner := d.owner.step A a } := by
  obtain ⟨asked, hasked, hno⟩ := h.requests
  unfold ownerActs
  dsimp only
  rw [hasked, List.drop_left, foldl_apart (d := { d with owner := d.owner.step A a }) hr a.2.now hno]

/-- A queue that something is expected in has it. -/
theorem exists_mem_of_amid {α : Type} {stale : α → Prop} {as : List α} {P : α → Prop} {Ps : List (α → Prop)}
    (h : Amid stale as (P :: Ps)) : ∃ a ∈ as, P a := by
  induction as with
  | nil => cases h
  | cons a as ih =>
    rcases h.uncons with ⟨-, h⟩ | ⟨_, _, heq, ha, -⟩
    · obtain ⟨b, hb, hP⟩ := ih h
      exact ⟨b, List.mem_cons_of_mem a hb, hP⟩
    · cases heq
      exact ⟨a, List.mem_cons_self, ha⟩

/-- Until the owner has given the text, it is being asked for it. -/
theorem asking_of_early {p : Phase} (h : p.At A r n text rd before d) (hp : p.early = true) : d.Asking := by
  have hhere := h.here
  have htoOwner := h.toOwner
  cases p with
  | targetsAsked => exact .inl ⟨_, Reads.reading hhere, rfl⟩
  | targetsGiven heard => exact .inl ⟨_, Reads.reading hhere, rfl⟩
  | textAsked =>
    obtain ⟨e, he, rfl⟩ := exists_mem_of_amid htoOwner
    exact .inr ⟨_, he⟩
  | textGiven heard => cases hp
  | incrGiven heard => cases hp
  | taken off type => cases hp
  | given off type => cases hp
  | last => cases hp
  | settled => cases hp

theorem other_at {p : Phase} (h : p.At A r n text rd before d) {a : Act × Reply} (ha : d.Allowed A (.other a)) :
    p.At A r n text rd before (d.ownerActs A a) ∧ p.left text (d.ownerActs A a) = p.left text d := by
  obtain ⟨hspares, hholds⟩ := ha
  rw [h.reader] at hspares
  have hapart := apart_step A r d.owner hspares
  rw [ownerActs_apart h.reader hapart]
  refine ⟨⟨h.ok, h.reader, ?_, hapart.chunk.trans h.chunk, h.here, h.property, h.listening, ?_, fun hp => ?_, h.toOwner, h.toReader⟩,
    rfl⟩
  · rw [hapart.window]
    exact h.owner
  · rw [hapart.sending]
    exact h.sending
  · rw [owned_step A r d.owner hspares (hholds (asking_of_early h hp))]
    exact h.owned hp

/-! ## A run -/

/-- One of them gets to an event. -/
def Move.delivers : Move → Bool
  | .owner _ => true
  | .reader _ => true
  | .other _ => false

theorem step_leads (hn : 0 < n) (hmax : (encode text .utf8).length ≤ maxText) {p : Phase} (h : p.At A r n text rd before d)
    {m : Move} (hm : d.Allowed A m) {d' : Desk} (hstep : d.step A m = some d') :
    ∃ p' : Phase, p'.At A r n text rd before d' ∧ p'.left text d' + (if m.delivers then 1 else 0) ≤ p.left text d := by
  cases m with
  | owner reply =>
    unfold step at hstep
    dsimp only at hstep
    split at hstep
    · cases hstep
    · next e rest hqueue =>
      cases hstep
      obtain ⟨p', hp', hlt⟩ := owner_leads hqueue reply h
      exact ⟨p', hp', hlt⟩
  | reader reply =>
    unfold step at hstep
    dsimp only at hstep
    split at hstep
    · cases hstep
    · next e rest hqueue =>
      cases hstep
      obtain ⟨p', hp', hlt⟩ := reader_leads hqueue reply hn hmax h
      exact ⟨p', hp', hlt⟩
  | other a =>
    cases hstep
    obtain ⟨hp, heq⟩ := other_at h hm
    exact ⟨p, hp, Nat.le_of_eq heq⟩

/-- One window has the text, and there is nothing between it and the other. -/
structure Ready (text : Str) (d : Desk) : Prop where
  owned : ∃ owned, d.owner.owned = some owned ∧ owned.text = text
  window : 0 < d.owner.window
  apart : d.reader.window ≠ d.owner.window
  chunk : 0 < d.owner.chunk
  spare : sendingTo d.reader.window d.owner = []
  reading : d.reader.reading = none
  queued : d.reader.queued = none
  claiming : d.reader.claiming = none
  readerOwned : d.reader.owned = none
  property : d.property = none
  listening : d.listening = false
  toOwner : d.toOwner = []
  toReader : d.toReader = []

/-- The other is asked for what is on the clipboard. -/
def ask (A : Atoms) (asked : Asked) (reply : Reply) (d : Desk) : Desk :=
  d.readerActs A (.command (.read asked), { reply with owner := d.owner.window })

theorem at_ask (h : d.Ready text) (asked : Asked) (reply : Reply) :
    Phase.targetsAsked.At A d.reader.window d.owner.chunk text
        ⟨asked.why, asked.time + readDeadline, .targets, 0, d.reader.clock⟩ d.reader.answers (d.ask A asked reply) ∧
      Phase.targetsAsked.left text (d.ask A asked reply) = 8 * (encode text .utf8).length + 33 := by
  have hwindow : ¬d.owner.window = 0 := Nat.pos_iff_ne_zero.1 h.window
  have hstart : ∀ reply : Reply, reply.owner = d.owner.window → d.reader.step A (.command (.read asked), reply) =
      { (({ d.reader with reading := some ⟨asked.why, asked.time + readDeadline, .targets, A.get .targets, d.reader.clock⟩ } :
          Worker).request (.convertSelection (A.get .clipboard) (A.get .targets) (A.get .ventoClipboard) 0)) with
        clock := d.reader.clock + 1 } := by
    intro reply howner
    simp [Worker.step, command, h.reading, startRead, h.claiming, h.readerOwned, howner, hwindow, convert]
  have hask : d.ask A asked reply =
      { d with
        reader := d.reader.step A (.command (.read asked), { reply with owner := d.owner.window })
        toOwner := [.selectionRequest (asksFor A d.reader.window .targets)] } := by
    unfold ask readerActs
    dsimp only
    rw [hstart _ rfl]
    simp [request, readerAsks, h.toOwner, asksFor]
  rw [hask, hstart _ rfl]
  refine ⟨⟨trivial, rfl, h.apart, rfl, ⟨rfl, h.queued, rfl⟩, h.property, h.listening, ⟨0, h.spare⟩, fun _ => h.owned,
    .cons rfl .nil, ?_⟩, ?_⟩
  · rw [show ({ d with toReader := d.toReader } : Desk).toReader = [] from h.toReader]
    exact .nil
  · simp [Phase.left, Phase.rank, h.toReader]
    omega

/-- A phase with nothing on its way. -/
theorem Phase.settled_of_nil {p : Phase} (h : p.At A r n text rd before d) (htoOwner : d.toOwner = []) (htoReader : d.toReader = []) :
    p = .settled := by
  have hO := h.toOwner
  have hR := h.toReader
  rw [htoOwner] at hO
  rw [htoReader] at hR
  have hO := hO.eq_nil
  have hR := hR.eq_nil
  cases p with
  | settled => rfl
  | targetsAsked => cases hO
  | textAsked => cases hO
  | taken off type => cases hO
  | last => cases hO
  | targetsGiven heard => cases heard <;> cases hR
  | textGiven heard => cases heard <;> cases hR
  | incrGiven heard => cases heard <;> cases hR
  | given off type => cases hR

end Desk

open Desk

/-- The other window reads the text, whatever else the owner does and in whatever order they get to what comes to them: it is
answered with that and nothing else, no more than so many events come to anyone, and when none is on its way it has been answered
and nothing is left of the transfer. -/
theorem text_crosses (A : Atoms) {text : Str} {start : Desk} (hready : start.Ready text) (hmax : (Str.bytes text).length ≤ maxText)
    (asked : Asked) (reply : Reply) {moves : List Move} {d : Desk}
    (hmeets : Meets (Desk.step A) (Desk.Allowed A) (start.ask A asked reply) moves)
    (hrun : run (Desk.step A) (start.ask A asked reply) moves = some d) :
    let answered := d.reader.reading = none ∧
      d.reader.answers = start.reader.answers ++ [⟨asked.why, some text, start.reader.clock⟩]
    (answered ∨ (d.reader.reading.isSome ∧ d.reader.answers = start.reader.answers)) ∧
      (moves.filter Move.delivers).length ≤ 8 * (Str.bytes text).length + 33 ∧
      (d.toOwner = [] → d.toReader = [] →
        answered ∧ sendingTo start.reader.window d.owner = [] ∧ d.property = none ∧ d.listening = false) := by
  have hinv : ∃ p : Phase, p.At A start.reader.window start.owner.chunk text
        ⟨asked.why, asked.time + readDeadline, .targets, 0, start.reader.clock⟩ start.reader.answers d ∧
      p.left text d + (moves.filter Move.delivers).length ≤ 8 * (Str.bytes text).length + 33 := by
    refine trace_inv (fun moves d => ∃ p : Phase, p.At A start.reader.window start.owner.chunk text
        ⟨asked.why, asked.time + readDeadline, .targets, 0, start.reader.clock⟩ start.reader.answers d ∧
      p.left text d + (moves.filter Move.delivers).length ≤ 8 * (Str.bytes text).length + 33) ?_ ?_ hmeets hrun
    · obtain ⟨hat, hleft⟩ := at_ask (A := A) hready asked reply
      exact ⟨.targetsAsked, hat, Nat.le_of_eq hleft⟩
    · rintro tr d m d' ⟨p, hp, hle⟩ hm hstep
      obtain ⟨p', hp', hlt⟩ := step_leads hready.chunk hmax hp hm hstep
      refine ⟨p', hp', ?_⟩
      rw [List.filter_append, List.length_append]
      cases hd : m.delivers with
      | true =>
        rw [hd] at hlt
        rw [List.filter_cons_of_pos hd, List.filter_nil, List.length_singleton]
        simp only [if_true] at hlt
        omega
      | false =>
        rw [hd] at hlt
        rw [List.filter_cons_of_neg (by simp [hd]), List.filter_nil, List.length_nil]
        simp only [Bool.false_eq_true, if_false] at hlt
        omega
  obtain ⟨p, hp, hle⟩ := hinv
  refine ⟨?_, (Nat.le_add_left _ _).trans hle, fun htoOwner htoReader => ?_⟩
  · have hhere := hp.here
    cases hreading : p.reading text with
    | none =>
      rw [hreading] at hhere
      exact .inl ⟨hhere.reading, hhere.answers⟩
    | some reading =>
      rw [hreading] at hhere
      exact .inr ⟨by rw [hhere.reading]; rfl, hhere.answers⟩
  · cases Phase.settled_of_nil hp htoOwner htoReader
    obtain ⟨_, hsending⟩ := hp.sending
    exact ⟨⟨hp.here.reading, hp.here.answers⟩, hsending, hp.property, hp.listening⟩

/-- Atoms numbered from 1. -/
def Atoms.counted : Atoms where
  get n := [Name.clipboard, .targets, .timestamp, .incr, .clipboardManager, .saveTargets, .ventoClipboard, .ventoClipboardTime,
    .utf8String, .plainUtf8, .plainUTF8, .string, .text, .plain].idxOf n + 1
  name k := [none, some Name.clipboard, some .targets, some .timestamp, some .incr, some .clipboardManager, some .saveTargets,
    some .ventoClipboard, some .ventoClipboardTime, some .utf8String, some .plainUtf8, some .plainUTF8, some .string, some .text,
    some .plain].getD k none
  name_get n := by cases n <;> rfl
  get_pos n := Nat.succ_pos _
  get_lt n := by cases n <;> decide

theorem text_crosses_hi :
    let reply : Reply := ⟨0, 0, none, true⟩
    let start : Desk := ⟨{ new 1 262144 with owned := some ⟨['h', 'i'], 5⟩ }, new 2 262144, none, false, [], []⟩
    let asked : Asked := ⟨⟨true, false⟩, 0⟩
    ∃ d, run (Desk.step .counted) (start.ask .counted asked reply) [.owner reply, .other (.take, reply), .reader reply] = some d ∧
      ((d.reader.reading = none ∧ d.reader.answers = [⟨asked.why, some ['h', 'i'], 0⟩]) ∨
        (d.reader.reading.isSome ∧ d.reader.answers = [])) := by
  intro reply start asked
  have hready : start.Ready ['h', 'i'] :=
    ⟨⟨_, rfl, rfl⟩, by decide, by decide, by decide, rfl, rfl, rfl, rfl, rfl, rfl, rfl, rfl, rfl⟩
  have hmeets : Meets (Desk.step .counted) (Desk.Allowed .counted) (start.ask .counted asked reply)
      [.owner reply, .other (.take, reply), .reader reply] :=
    ⟨trivial, fun _ _ => ⟨⟨trivial, fun _ => trivial⟩, fun _ _ => ⟨trivial, fun _ _ => trivial⟩⟩⟩
  exact ⟨_, rfl, (text_crosses .counted hready (by decide) asked reply hmeets rfl).1⟩

end Vento.Linux.Clipboard
