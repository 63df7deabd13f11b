import Vento.Lib.Runs
import Vento.Rfb.Client
/-!
# Whose text is on the clipboard

The two ends of the clipboard in `rfb/src/client.rs`: `Client::clipboard` and
`set_view_only` on the UI thread, `server_cut_text` on the protocol thread. Both
change `Clip` under its lock, but `clipboard` sends only after it let go of it,
so a message of the server may come between the two.

The other shared fields change meanwhile too, by messages and calls that leave
the clipboard alone; they are left as they are here.
-/

namespace Vento.Rfb

open Vento.Lib Parser

namespace Shared

variable {z : Flate}

/-- `Client::clipboard` as far as it holds the lock: what it keeps, and what it
is going to send. -/
def clipboard (sh : Shared z) (text : Text) : Shared z × Option (List UInt8) :=
  if sh.viewOnly then (sh, none)
  else
    let text := Runtime.toLf text
    let server := sh.clip.server
    if server &&& Clipboard.caps = 0 then (sh, some (Clipboard.clientCutText text))
    else
      let wire := Clipboard.wireText text
      let msg :=
        if server &&& Clipboard.provide ≠ 0 ∧ wire.length ≤ sh.clip.serverUtf8Size then Clipboard.provideMessage z wire
        else if server &&& Clipboard.notify ≠ 0 then Clipboard.notifyMessage true
        else Clipboard.localText z server text
      ({ sh with clip := { sh.clip with localText := some text } }, some msg)

/-- `Client::send`: nothing is queued for a session that is not up. -/
def sendRunning (sh : Shared z) (msg : List UInt8) : Shared z := if sh.running then sh.send msg else sh

def setViewOnly (sh : Shared z) (viewOnly : Bool) : Shared z := { sh with viewOnly }

end Shared

/-! ## The two threads -/

/-- A session, with what the UI thread has made of a copy and not sent yet. -/
structure Session (z : Flate) where
  shared : Shared z
  sending : Option (List UInt8)

/-- What the two threads do. The UI thread is one: it finishes a call before the
next. -/
inductive Session.Action where
  | clipboard (text : Text)
  | send
  | setViewOnly (viewOnly : Bool)
  | cutText (length : Int) (body : List UInt8)
deriving DecidableEq, Repr

namespace Session

variable {z : Flate}

def step (s : Session z) : Action → Option (Session z)
  | .clipboard text =>
    match s.sending with
    | some _ => none
    | none => some ⟨(s.shared.clipboard text).1, (s.shared.clipboard text).2⟩
  | .send =>
    match s.sending with
    | some msg => some ⟨s.shared.sendRunning msg, none⟩
    | none => none
  | .setViewOnly viewOnly =>
    match s.sending with
    | some _ => none
    | none => some ⟨s.shared.setViewOnly viewOnly, none⟩
  | .cutText length body =>
    match s.shared.cutText length body with
    | .ok (sh, []) => some ⟨sh, s.sending⟩
    | _ => none

end Session

/-! ## What the server says -/

/-- A cut text as `server_cut_text` takes it. -/
inductive Received where
  | skipped
  | plain (text : Text)
  | extended (message : Clipboard.Message)
deriving DecidableEq, Repr

def receive (z : Flate) (length : Int) (body : List UInt8) : Except Failure Received :=
  if length.natAbs > Shared.maxCutText then .ok .skipped
  else if length ≥ 0 then .ok (.plain (Runtime.toLf (latin1 body)))
  else .extended <$> Clipboard.parse z body Shared.maxCutText

/-- What it does with it. -/
def Shared.take {z : Flate} (sh : Shared z) : Received → Shared z
  | .skipped => sh
  | .plain text => { sh with clip := { sh.clip with localText := none } }.tell (.clipboard text)
  | .extended message => sh.extendedClipboard message

theorem Shared.reading_eq_ok {z : Flate} {α : Type} {sh : Shared z} {p : Reader α} {bs : List UInt8}
    {r : α × List UInt8} : sh.reading p bs = .ok r ↔ p bs = .ok r := by
  unfold reading
  cases p bs with
  | ok r' => simp
  | error f => simp

/-- `cutText` reads one message, and does with it what it says. -/
theorem Shared.cutText_eq_ok {z : Flate} {sh sh' : Shared z} {length : Int} {body : List UInt8} :
    sh.cutText length body = .ok (sh', []) ↔
      body.length = length.natAbs ∧ ∃ r, receive z length body = .ok r ∧ sh' = sh.take r := by
  unfold cutText receive
  by_cases hover : length.natAbs > maxCutText
  · simp only [if_pos hover, bind_eq_ok, reading_eq_ok, skip, map_eq_ok, bytes_eq_ok, pure_eq_ok]
    constructor
    · rintro ⟨-, -, ⟨a, ⟨rfl, hlen⟩, -⟩, rfl, rfl⟩
      exact ⟨by rw [List.append_nil, hlen], .skipped, rfl, rfl⟩
    · rintro ⟨hlen, r, hr, rfl⟩
      cases hr
      exact ⟨(), [], ⟨body, ⟨(List.append_nil body).symm, hlen⟩, trivial⟩, rfl, rfl⟩
  · simp only [if_neg hover, bind_eq_ok, reading_eq_ok, bytes_eq_ok]
    constructor
    · rintro ⟨a, mid, ⟨rfl, hlen⟩, hrest⟩
      split at hrest
      · rename_i hpos
        obtain ⟨rfl, rfl⟩ := pure_eq_ok.1 hrest
        rw [List.append_nil, if_pos hpos]
        exact ⟨hlen, _, rfl, rfl⟩
      · rename_i hneg
        cases hparse : Clipboard.parse z a maxCutText with
        | error f =>
          rw [hparse] at hrest
          cases hrest
        | ok message =>
          rw [hparse] at hrest
          obtain ⟨rfl, rfl⟩ := pure_eq_ok.1 hrest
          rw [List.append_nil, if_neg hneg, hparse]
          exact ⟨hlen, _, rfl, rfl⟩
    · rintro ⟨hlen, r, hr, rfl⟩
      refine ⟨body, [], ⟨(List.append_nil body).symm, hlen⟩, ?_⟩
      by_cases hpos : length ≥ 0
      · rw [if_pos hpos] at hr ⊢
        cases hr
        rfl
      · rw [if_neg hpos] at hr ⊢
        cases hparse : Clipboard.parse z body maxCutText with
        | error f =>
          rw [hparse] at hr
          cases hr
        | ok message =>
          rw [hparse] at hr
          cases hr
          rfl

/-- Capabilities are told by their bit. -/
theorem receive_caps {z : Flate} {length : Int} {body : List UInt8} {flags : UInt32} {size : Option Nat}
    (h : receive z length body = .ok (.extended (.caps flags size))) : flags &&& Clipboard.caps ≠ 0 := by
  unfold receive at h
  split at h
  · cases h
  · split at h
    · cases h
    · cases hparse : Clipboard.parse z body Shared.maxCutText with
      | error f =>
        rw [hparse] at h
        cases h
      | ok message =>
        rw [hparse] at h
        cases h
        exact Clipboard.parse_caps hparse

namespace Received

/-- The server's clipboard has a text of its own now. -/
def Supersedes : Received → Prop
  | .plain _ => True
  | .extended (.notify formats) => formats &&& Clipboard.utf8 ≠ 0
  | _ => False

instance : DecidablePred Supersedes
  | .plain _ => .isTrue trivial
  | .extended (.notify formats) => inferInstanceAs (Decidable (formats &&& Clipboard.utf8 ≠ 0))
  | .skipped | .extended (.caps _ _) | .extended (.request _) | .extended .peek | .extended (.provide _) =>
    .isFalse id

/-- The text it brings. -/
def text : Received → Option Text
  | .plain text => some text
  | .extended (.provide text) => text
  | _ => none

/-- What it makes of the server's capabilities. -/
def capsOr (server : UInt32) : Received → UInt32
  | .extended (.caps flags _) => flags
  | _ => server

end Received

namespace Shared

variable {z : Flate}

/-- What is sent to the server for an extended message. -/
def answerTo (sh : Shared z) : Clipboard.Message → List (List UInt8)
  | .caps _ _ => [Clipboard.capsMessage]
  | .notify formats =>
    if formats &&& Clipboard.utf8 ≠ 0 ∧ sh.clip.server &&& Clipboard.request ≠ 0 then [Clipboard.requestMessage] else []
  | .request formats =>
    match sh.clip.localText with
    | some text =>
      if formats &&& Clipboard.utf8 ≠ 0 ∧ !sh.viewOnly then [Clipboard.localText z sh.clip.server text] else []
    | none => []
  | .peek =>
    if sh.clip.server &&& Clipboard.notify ≠ 0 then [Clipboard.notifyMessage sh.clip.localText.isSome] else []
  | .provide _ => []

def answer (sh : Shared z) : Received → List (List UInt8)
  | .skipped => []
  | .plain _ => []
  | .extended message => sh.answerTo message

/-- Everything a cut text does to the clipboard. -/
structure Takes (sh : Shared z) (r : Received) (sh' : Shared z) : Prop where
  viewOnly : sh'.viewOnly = sh.viewOnly
  server : sh'.clip.server = r.capsOr sh.clip.server
  localText : sh'.clip.localText = if r.Supersedes then none else sh.clip.localText
  out : sh'.out = sh.out ++ sh.answer r
  events : sh'.events = sh.events ++ (r.text.map Event.clipboard).toList

/-- One that does nothing. -/
theorem Takes.same {sh : Shared z} {r : Received} (hserver : r.capsOr sh.clip.server = sh.clip.server)
    (hlocal : ¬r.Supersedes) (hout : sh.answer r = []) (htext : r.text = none) : Takes sh r sh where
  viewOnly := rfl
  server := hserver.symm
  localText := (if_neg hlocal).symm
  out := by rw [hout, List.append_nil]
  events := by rw [htext, Option.map_none, Option.toList_none, List.append_nil]

theorem takes (sh : Shared z) (r : Received) : Takes sh r (sh.take r) := by
  match r with
  | .skipped => exact .same rfl id rfl rfl
  | .plain text => exact ⟨rfl, rfl, rfl, (List.append_nil _).symm, rfl⟩
  | .extended (.caps flags size) => exact ⟨rfl, rfl, rfl, rfl, (List.append_nil _).symm⟩
  | .extended (.provide none) => exact .same rfl id rfl rfl
  | .extended (.provide (some text)) => exact ⟨rfl, rfl, rfl, (List.append_nil _).symm, rfl⟩
  | .extended .peek =>
    by_cases hserver : sh.clip.server &&& Clipboard.notify ≠ 0
    · have hout : sh.answer (.extended .peek) = [Clipboard.notifyMessage sh.clip.localText.isSome] := if_pos hserver
      rw [take, extendedClipboard, if_pos hserver]
      exact ⟨rfl, rfl, rfl, congrArg _ hout.symm, (List.append_nil _).symm⟩
    · rw [take, extendedClipboard, if_neg hserver]
      exact .same rfl id (if_neg hserver) rfl
  | .extended (.request formats) =>
    cases hlocal : sh.clip.localText with
    | none =>
      rw [take, extendedClipboard, hlocal]
      exact .same rfl id (by rw [answer, answerTo, hlocal]) rfl
    | some text =>
      by_cases hsend : formats &&& Clipboard.utf8 ≠ 0 ∧ !sh.viewOnly
      · have hout : sh.answer (.extended (.request formats)) = [Clipboard.localText z sh.clip.server text] := by
          simp only [answer, answerTo, hlocal, if_pos hsend]
        simp only [take, extendedClipboard, hlocal, if_pos hsend]
        exact ⟨rfl, rfl, rfl, congrArg _ hout.symm, (List.append_nil _).symm⟩
      · simp only [take, extendedClipboard, hlocal, if_neg hsend]
        exact .same rfl id (by simp only [answer, answerTo, hlocal, if_neg hsend]) rfl
  | .extended (.notify formats) =>
    by_cases htext : formats &&& Clipboard.utf8 ≠ 0
    · have hlocal : none = if (Received.extended (.notify formats)).Supersedes then none else sh.clip.localText :=
        (if_pos htext).symm
      rw [take, extendedClipboard, if_pos htext]
      by_cases hserver : sh.clip.server &&& Clipboard.request ≠ 0
      · simp only [if_pos hserver]
        have hout : sh.answer (.extended (.notify formats)) = [Clipboard.requestMessage] := if_pos ⟨htext, hserver⟩
        exact ⟨rfl, rfl, hlocal, congrArg _ hout.symm, (List.append_nil _).symm⟩
      · simp only [if_neg hserver]
        have hout : sh.answer (.extended (.notify formats)) = [] := if_neg fun h => hserver h.2
        exact ⟨rfl, rfl, hlocal, by rw [hout, List.append_nil], (List.append_nil _).symm⟩
    · rw [take, extendedClipboard, if_neg htext]
      exact .same rfl htext (if_neg fun h => htext h.1) rfl

end Shared

namespace Session

/-! ## What happened so far -/

def Action.viewOnly (viewOnly : Bool) : Action → Bool
  | .setViewOnly viewOnly => viewOnly
  | _ => viewOnly

/-- Whether the session is view-only after `as`. -/
def viewOnlyAfter (viewOnly : Bool) (as : List Action) : Bool := as.foldl Action.viewOnly viewOnly

def Action.Says (z : Flate) (a : Action) (r : Received) : Prop :=
  ∃ length body, a = .cutText length body ∧ body.length = length.natAbs ∧ receive z length body = .ok r

/-- The server has said that it has the extended clipboard. -/
def Announced (z : Flate) (as : List Action) : Prop := ∃ a ∈ as, ∃ flags size, a.Says z (.extended (.caps flags size))

/-- A copy that this end keeps: in view-only mode it has none, and without the
extended clipboard a copy is sent at once. -/
def Keeps (z : Flate) (viewOnly : Bool) (as : List Action) (a : Action) (text : Text) : Prop :=
  ∃ copied, a = .clipboard copied ∧ text = Runtime.toLf copied ∧ viewOnlyAfter viewOnly as = false ∧ Announced z as

/-- A later copy, or a text of the server's. -/
def Ends (z : Flate) (viewOnly : Bool) (as : List Action) (a : Action) : Prop :=
  (∃ r, a.Says z r ∧ r.Supersedes) ∨ ∃ text, Keeps z viewOnly as a text

/-- The text of the last copy kept, if nothing has superseded it. -/
def Current (z : Flate) (viewOnly : Bool) (as : List Action) (text : Text) : Prop :=
  LastSet (Keeps z viewOnly) (Ends z viewOnly) as text

theorem viewOnlyAfter_snoc (viewOnly : Bool) (as : List Action) (a : Action) :
    viewOnlyAfter viewOnly (as ++ [a]) = a.viewOnly (viewOnlyAfter viewOnly as) := by
  rw [viewOnlyAfter, List.foldl_append]
  rfl

theorem announced_snoc {z : Flate} {as : List Action} {a : Action} :
    Announced z (as ++ [a]) ↔ Announced z as ∨ ∃ flags size, a.Says z (.extended (.caps flags size)) := by
  unfold Announced
  constructor
  · rintro ⟨b, hb, hsaid⟩
    rcases List.mem_append.1 hb with hb | hb
    · exact .inl ⟨b, hb, hsaid⟩
    · rw [List.mem_singleton] at hb
      exact .inr (hb ▸ hsaid)
  · rintro (⟨b, hb, hsaid⟩ | hsaid)
    · exact ⟨b, List.mem_append_left _ hb, hsaid⟩
    · exact ⟨a, List.mem_append_right _ (List.mem_singleton_self a), hsaid⟩

/-- An action that neither keeps a copy nor says anything. -/
theorem current_snoc_of_not {z : Flate} {viewOnly : Bool} {as : List Action} {a : Action} {text : Text}
    (h : ¬Ends z viewOnly as a) : Current z viewOnly (as ++ [a]) text ↔ Current z viewOnly as text := by
  unfold Current
  rw [lastSet_snoc]
  constructor
  · rintro (hk | hl)
    · exact absurd (.inr ⟨text, hk⟩) h
    · exact hl.1
  · exact fun hl => .inr ⟨hl, h⟩

/-! ## The step -/

variable {z : Flate}

theorem step_cases {s s' : Session z} {a : Action} (h : s.step a = some s') :
    (∃ text, a = .clipboard text ∧ s.sending = none ∧
      s' = ⟨(s.shared.clipboard text).1, (s.shared.clipboard text).2⟩) ∨
    (∃ msg, a = .send ∧ s.sending = some msg ∧ s' = ⟨s.shared.sendRunning msg, none⟩) ∨
    (∃ v, a = .setViewOnly v ∧ s.sending = none ∧ s' = ⟨s.shared.setViewOnly v, none⟩) ∨
    ∃ r, a.Says z r ∧ s' = ⟨s.shared.take r, s.sending⟩ := by
  cases a with
  | clipboard text =>
    cases hs : s.sending with
    | some msg =>
      rw [step, hs] at h
      cases h
    | none =>
      rw [step, hs] at h
      cases h
      exact .inl ⟨text, rfl, rfl, rfl⟩
  | send =>
    cases hs : s.sending with
    | some msg =>
      rw [step, hs] at h
      cases h
      exact .inr (.inl ⟨msg, rfl, rfl, rfl⟩)
    | none =>
      rw [step, hs] at h
      cases h
  | setViewOnly v =>
    cases hs : s.sending with
    | some msg =>
      rw [step, hs] at h
      cases h
    | none =>
      rw [step, hs] at h
      cases h
      exact .inr (.inr (.inl ⟨v, rfl, rfl, rfl⟩))
  | cutText length body =>
    rw [step] at h
    split at h
    · rename_i sh hcut
      cases h
      obtain ⟨hlen, r, hr, rfl⟩ := Shared.cutText_eq_ok.1 hcut
      exact .inr (.inr (.inr ⟨r, ⟨length, body, rfl, hlen, hr⟩, rfl⟩))
    · cases h

/-- A message of the server is always taken. -/
theorem step_said {s : Session z} {a : Action} {r : Received} (h : a.Says z r) :
    s.step a = some ⟨s.shared.take r, s.sending⟩ := by
  obtain ⟨length, body, rfl, hlen, hr⟩ := h
  rw [step, Shared.cutText_eq_ok.2 ⟨hlen, r, hr, rfl⟩]

end Session

/-- The three things a copy may come to. -/
theorem Shared.clipboard_cases {z : Flate} (sh : Shared z) (text : Text) :
    (sh.viewOnly = true ∧ sh.clipboard text = (sh, none)) ∨
    (sh.viewOnly = false ∧ sh.clip.server &&& Clipboard.caps = 0 ∧
      sh.clipboard text = (sh, some (Clipboard.clientCutText (Runtime.toLf text)))) ∨
    (sh.viewOnly = false ∧ sh.clip.server &&& Clipboard.caps ≠ 0 ∧ ∃ msg,
      sh.clipboard text = ({ sh with clip := { sh.clip with localText := some (Runtime.toLf text) } }, some msg)) := by
  unfold clipboard
  by_cases hview : sh.viewOnly = true
  · exact .inl ⟨hview, if_pos hview⟩
  · have hnot : sh.viewOnly = false := by simpa using hview
    rw [if_neg hview]
    by_cases hcaps : sh.clip.server &&& Clipboard.caps = 0
    · exact .inr (.inl ⟨hnot, hcaps, if_pos hcaps⟩)
    · exact .inr (.inr ⟨hnot, hcaps, _, if_neg hcaps⟩)

theorem Shared.sendRunning_keeps {z : Flate} (sh : Shared z) (msg : List UInt8) :
    (sh.sendRunning msg).viewOnly = sh.viewOnly ∧ (sh.sendRunning msg).clip = sh.clip ∧
      (sh.sendRunning msg).events = sh.events := by
  unfold sendRunning
  split <;> exact ⟨rfl, rfl, rfl⟩

/-- A session whose clipboard has not been used. -/
structure Shared.Fresh {z : Flate} (sh : Shared z) : Prop where
  server : sh.clip.server = 0
  localText : sh.clip.localText = none
  events : ∀ text, .clipboard text ∉ sh.events

namespace Session

variable {z : Flate}

theorem Action.Says.unique {a : Action} {r r' : Received} (h : a.Says z r) (h' : a.Says z r') : r = r' := by
  obtain ⟨length, body, rfl, -, hr⟩ := h
  obtain ⟨length', body', heq, -, hr'⟩ := h'
  cases heq
  rw [hr] at hr'
  cases hr'
  rfl

/-- What the state says of the actions so far. A copy is sent before view-only
mode can come in. -/
structure Tracks (sh₀ : Shared z) (as : List Action) (s : Session z) : Prop where
  viewOnly : s.shared.viewOnly = viewOnlyAfter sh₀.viewOnly as
  announced : s.shared.clip.server &&& Clipboard.caps ≠ 0 ↔ Announced z as
  current : ∀ text, s.shared.clip.localText = some text ↔ Current z sh₀.viewOnly as text
  sending : s.shared.viewOnly = true → s.sending = none
  reported : ∀ text, .clipboard text ∈ s.shared.events → ∃ a ∈ as, ∃ r, a.Says z r ∧ r.text = some text

theorem Tracks.fresh {sh₀ : Shared z} (h : sh₀.Fresh) : Tracks sh₀ [] ⟨sh₀, none⟩ where
  viewOnly := rfl
  announced := by
    simp only [h.server]
    constructor
    · exact fun hne => absurd rfl hne
    · rintro ⟨a, ha, -⟩
      cases ha
  current text := by
    rw [h.localText]
    exact ⟨nofun, fun hc => absurd hc lastSet_nil⟩
  sending _ := rfl
  reported text ht := absurd ht (h.events text)

/-- An action of the UI thread that keeps no copy. -/
theorem Tracks.ui {sh₀ : Shared z} {as : List Action} {s s' : Session z} {a : Action} (h : Tracks sh₀ as s)
    (hsaid : ∀ r, ¬a.Says z r) (hkeeps : ∀ text, ¬Keeps z sh₀.viewOnly as a text)
    (hview : s'.shared.viewOnly = a.viewOnly s.shared.viewOnly) (hclip : s'.shared.clip = s.shared.clip)
    (hevents : s'.shared.events = s.shared.events) (hsending : s'.shared.viewOnly = true → s'.sending = none) :
    Tracks sh₀ (as ++ [a]) s' where
  viewOnly := by rw [hview, h.viewOnly, viewOnlyAfter_snoc]
  announced := by
    rw [hclip, h.announced, announced_snoc]
    refine ⟨.inl, fun hor => hor.resolve_right ?_⟩
    rintro ⟨flags, size, hs⟩
    exact hsaid _ hs
  current text := by
    rw [hclip, h.current]
    refine (current_snoc_of_not ?_).symm
    rintro (⟨r, hr, -⟩ | ⟨text, ht⟩)
    · exact hsaid r hr
    · exact hkeeps text ht
  sending := hsending
  reported text ht := by
    rw [hevents] at ht
    obtain ⟨b, hb, hr⟩ := h.reported text ht
    exact ⟨b, List.mem_append_left _ hb, hr⟩

theorem not_said_clipboard (text : Text) (r : Received) : ¬(Action.clipboard text).Says z r := by
  rintro ⟨length, body, h, -⟩
  cases h

theorem Tracks.clipboard {sh₀ : Shared z} {as : List Action} {s : Session z} (h : Tracks sh₀ as s) (text : Text) :
    Tracks sh₀ (as ++ [.clipboard text]) ⟨(s.shared.clipboard text).1, (s.shared.clipboard text).2⟩ := by
  rcases s.shared.clipboard_cases text with ⟨hview, heq⟩ | ⟨hview, hcaps, heq⟩ | ⟨hview, hcaps, msg, heq⟩
  · rw [heq]
    refine h.ui (not_said_clipboard text) ?_ rfl rfl rfl fun _ => rfl
    rintro _ ⟨-, -, -, hnot, -⟩
    rw [← h.viewOnly, hview] at hnot
    cases hnot
  · rw [heq]
    refine h.ui (not_said_clipboard text) ?_ rfl rfl rfl fun hv => ?_
    · rintro _ ⟨-, -, -, -, hann⟩
      exact h.announced.2 hann hcaps
    · rw [hview] at hv
      cases hv
  · rw [heq]
    have hkeeps : Keeps z sh₀.viewOnly as (.clipboard text) (Runtime.toLf text) :=
      ⟨text, rfl, rfl, by rw [← h.viewOnly, hview], h.announced.1 hcaps⟩
    refine ⟨by rw [viewOnlyAfter_snoc]; exact h.viewOnly, ?_, fun t => ?_, fun hv => ?_, fun t ht => ?_⟩
    · rw [announced_snoc]
      exact ⟨fun _ => .inl (h.announced.1 hcaps), fun _ => hcaps⟩
    · -- this copy is the last one now
      unfold Current
      rw [lastSet_snoc]
      constructor
      · intro ht
        cases ht
        exact .inl hkeeps
      · rintro (⟨copied, hcopied, rfl, -⟩ | ⟨-, hends⟩)
        · cases hcopied
          rfl
        · exact absurd (.inr ⟨_, hkeeps⟩) hends
    · rw [show (({ s.shared with clip := _ } : Shared z)).viewOnly = s.shared.viewOnly from rfl, hview] at hv
      cases hv
    · obtain ⟨b, hb, hr⟩ := h.reported t ht
      exact ⟨b, List.mem_append_left _ hb, hr⟩

theorem Tracks.said {sh₀ : Shared z} {as : List Action} {s : Session z} (h : Tracks sh₀ as s) {a : Action}
    {r : Received} (hr : a.Says z r) : Tracks sh₀ (as ++ [a]) ⟨s.shared.take r, s.sending⟩ := by
  have ht := s.shared.takes r
  have hview : a.viewOnly (viewOnlyAfter sh₀.viewOnly as) = viewOnlyAfter sh₀.viewOnly as := by
    obtain ⟨length, body, rfl, -⟩ := hr
    rfl
  have hkeeps : ∀ text, ¬Keeps z sh₀.viewOnly as a text := by
    rintro text ⟨copied, rfl, -⟩
    exact not_said_clipboard copied r hr
  have hends : Ends z sh₀.viewOnly as a ↔ r.Supersedes := by
    constructor
    · rintro (⟨r', hr', hsup⟩ | ⟨text, hk⟩)
      · rwa [hr.unique hr']
      · exact absurd hk (hkeeps text)
    · exact fun hsup => .inl ⟨r, hr, hsup⟩
  refine ⟨?_, ?_, fun text => ?_, fun hv => ?_, fun text htext => ?_⟩
  · rw [viewOnlyAfter_snoc, hview, ← h.viewOnly]
    exact ht.viewOnly
  · simp only [ht.server]
    rw [announced_snoc, ← h.announced]
    match r, hr with
    | .extended (.caps flags size), hr =>
      obtain ⟨length, body, -, -, hreceive⟩ := id hr
      exact ⟨fun _ => .inr ⟨flags, size, hr⟩, fun _ => receive_caps hreceive⟩
    | .skipped, hr | .plain _, hr | .extended (.request _), hr | .extended .peek, hr | .extended (.notify _), hr
    | .extended (.provide _), hr =>
      refine ⟨.inl, fun hor => hor.resolve_right ?_⟩
      rintro ⟨flags, size, hcaps⟩
      cases hr.unique hcaps
  · simp only [ht.localText]
    unfold Current
    rw [lastSet_snoc, hends]
    by_cases hsup : r.Supersedes
    · rw [if_pos hsup]
      constructor
      · exact nofun
      · rintro (hk | ⟨-, hnot⟩)
        · exact absurd hk (hkeeps text)
        · exact absurd hsup hnot
    · rw [if_neg hsup, h.current]
      exact ⟨fun hc => .inr ⟨hc, hsup⟩, fun hor => (hor.resolve_left (hkeeps text)).1⟩
  · rw [show (s.shared.take r).viewOnly = s.shared.viewOnly from ht.viewOnly] at hv
    exact h.sending hv
  · simp only [ht.events, List.mem_append] at htext
    rcases htext with htext | htext
    · obtain ⟨b, hb, hr'⟩ := h.reported text htext
      exact ⟨b, List.mem_append_left _ hb, hr'⟩
    · refine ⟨a, List.mem_append_right _ (List.mem_singleton_self a), r, hr, ?_⟩
      simpa using htext

theorem Tracks.step {sh₀ : Shared z} {as : List Action} {s s' : Session z} {a : Action} (h : Tracks sh₀ as s)
    (hs : s.step a = some s') : Tracks sh₀ (as ++ [a]) s' := by
  rcases step_cases hs with ⟨text, rfl, -, rfl⟩ | ⟨msg, rfl, -, rfl⟩ | ⟨v, rfl, -, rfl⟩ | ⟨r, hr, rfl⟩
  · exact h.clipboard text
  · obtain ⟨hview, hclip, hevents⟩ := s.shared.sendRunning_keeps msg
    refine h.ui ?_ ?_ hview hclip hevents fun _ => rfl
    · rintro r ⟨_, _, heq, -⟩
      cases heq
    · rintro text ⟨_, heq, -⟩
      cases heq
  · refine h.ui ?_ ?_ rfl rfl rfl fun _ => rfl
    · rintro r ⟨_, _, heq, -⟩
      cases heq
    · rintro text ⟨_, heq, -⟩
      cases heq
  · exact h.said hr

theorem tracks {sh₀ : Shared z} (h0 : sh₀.Fresh) {as : List Action} {s : Session z}
    (h : run step ⟨sh₀, none⟩ as = some s) : Tracks sh₀ as s :=
  trace_inv_all (Tracks sh₀) (.fresh h0) (fun _ _ _ _ hi hs => hi.step hs) h

/-! ## What is sent and what is reported -/

/-- The step `a` queues `msgs`. -/
def Sends (s : Session z) (a : Action) (msgs : List (List UInt8)) : Prop :=
  ∃ s', s.step a = some s' ∧ s'.shared.out = s.shared.out ++ msgs

theorem sends_said {s : Session z} {a : Action} {r : Received} (h : a.Says z r) : s.Sends a (s.shared.answer r) :=
  ⟨_, step_said h, (s.shared.takes r).out⟩

theorem Tracks.request {sh₀ : Shared z} {as : List Action} {s : Session z} (h : Tracks sh₀ as s) {a : Action}
    {formats : UInt32} (ha : a.Says z (.extended (.request formats))) :
    (∃ text, Current z sh₀.viewOnly as text ∧ formats &&& Clipboard.utf8 ≠ 0 ∧
      viewOnlyAfter sh₀.viewOnly as = false ∧ s.Sends a [Clipboard.localText z s.shared.clip.server text]) ∨
    (((∀ text, ¬Current z sh₀.viewOnly as text) ∨ formats &&& Clipboard.utf8 = 0 ∨
      viewOnlyAfter sh₀.viewOnly as = true) ∧ s.Sends a []) := by
  have hsends := sends_said (s := s) ha
  unfold Shared.answer Shared.answerTo at hsends
  cases hlocal : s.shared.clip.localText with
  | none =>
    rw [hlocal] at hsends
    refine .inr ⟨.inl fun text hc => ?_, hsends⟩
    rw [← h.current, hlocal] at hc
    cases hc
  | some text =>
    simp only [hlocal] at hsends
    by_cases hsend : formats &&& Clipboard.utf8 ≠ 0 ∧ !s.shared.viewOnly
    · rw [if_pos hsend] at hsends
      refine .inl ⟨text, (h.current text).1 hlocal, hsend.1, ?_, hsends⟩
      rw [← h.viewOnly]
      simpa using hsend.2
    · rw [if_neg hsend] at hsends
      refine .inr ⟨.inr ?_, hsends⟩
      rw [← h.viewOnly]
      by_cases hformats : formats &&& Clipboard.utf8 = 0
      · exact .inl hformats
      · exact .inr (by simpa [hformats] using hsend)

theorem Tracks.peek {sh₀ : Shared z} {as : List Action} {s : Session z} (h : Tracks sh₀ as s) {a : Action}
    (ha : a.Says z (.extended .peek)) :
    (s.shared.clip.server &&& Clipboard.notify = 0 ∧ s.Sends a []) ∨
    ∃ available, s.Sends a [Clipboard.notifyMessage available] ∧
      (available = true ↔ ∃ text, Current z sh₀.viewOnly as text) := by
  have hsends := sends_said (s := s) ha
  unfold Shared.answer Shared.answerTo at hsends
  by_cases hnotify : s.shared.clip.server &&& Clipboard.notify = 0
  · rw [if_neg fun hne => hne hnotify] at hsends
    exact .inl ⟨hnotify, hsends⟩
  · rw [if_pos hnotify] at hsends
    refine .inr ⟨_, hsends, ?_⟩
    rw [Option.isSome_iff_exists]
    simp only [h.current]

/-- In view-only mode this end makes itself known and asks for the server's text;
of its own it says no more than that it is there, and only when asked. -/
theorem Tracks.viewOnly_out {sh₀ : Shared z} {as : List Action} {s s' : Session z} (h : Tracks sh₀ as s)
    (hview : viewOnlyAfter sh₀.viewOnly as = true) {a : Action} (hs : s.step a = some s') :
    ∃ msgs, s'.shared.out = s.shared.out ++ msgs ∧
      ∀ msg ∈ msgs, msg = Clipboard.capsMessage ∨ msg = Clipboard.requestMessage ∨
        (a.Says z (.extended .peek) ∧ ∃ available, msg = Clipboard.notifyMessage available) := by
  rw [← h.viewOnly] at hview
  rcases step_cases hs with ⟨text, rfl, -, rfl⟩ | ⟨msg, rfl, hmsg, rfl⟩ | ⟨v, rfl, -, rfl⟩ | ⟨r, hr, rfl⟩
  · refine ⟨[], ?_, fun _ hm => absurd hm List.not_mem_nil⟩
    rw [Shared.clipboard, if_pos hview, List.append_nil]
  · rw [h.sending hview] at hmsg
    cases hmsg
  · exact ⟨[], (List.append_nil _).symm, fun _ hm => absurd hm List.not_mem_nil⟩
  · refine ⟨s.shared.answer r, (s.shared.takes r).out, fun msg hm => ?_⟩
    match r, hr with
    | .skipped, _ | .plain _, _ | .extended (.provide _), _ => cases hm
    | .extended (.caps flags size), _ => exact .inl (List.mem_singleton.1 hm)
    | .extended (.notify formats), _ =>
      simp only [Shared.answer, Shared.answerTo] at hm
      split at hm
      · exact .inr (.inl (List.mem_singleton.1 hm))
      · cases hm
    | .extended (.request formats), _ =>
      simp only [Shared.answer, Shared.answerTo, hview, Bool.not_true, Bool.false_eq_true, and_false, if_false] at hm
      split at hm <;> cases hm
    | .extended .peek, hr =>
      simp only [Shared.answer, Shared.answerTo] at hm
      split at hm
      · exact .inr (.inr ⟨hr, _, List.mem_singleton.1 hm⟩)
      · cases hm

/-- Whatever the order of copies, view-only changes and messages of the server: a
request is answered with the text of the last copy kept and not superseded, a
peek with whether there is one, nothing of this end's goes out in view-only
mode, and what is reported is what the server sent. -/
theorem clipboard_protocol {sh₀ : Shared z} (h0 : sh₀.Fresh) {as : List Action} {s : Session z}
    (h : run step ⟨sh₀, none⟩ as = some s) :
    (∀ a formats, a.Says z (.extended (.request formats)) →
      (∃ text, Current z sh₀.viewOnly as text ∧ formats &&& Clipboard.utf8 ≠ 0 ∧
        viewOnlyAfter sh₀.viewOnly as = false ∧ s.Sends a [Clipboard.localText z s.shared.clip.server text]) ∨
      (((∀ text, ¬Current z sh₀.viewOnly as text) ∨ formats &&& Clipboard.utf8 = 0 ∨
        viewOnlyAfter sh₀.viewOnly as = true) ∧ s.Sends a [])) ∧
    (∀ a, a.Says z (.extended .peek) →
      (s.shared.clip.server &&& Clipboard.notify = 0 ∧ s.Sends a []) ∨
      ∃ available, s.Sends a [Clipboard.notifyMessage available] ∧
        (available = true ↔ ∃ text, Current z sh₀.viewOnly as text)) ∧
    (viewOnlyAfter sh₀.viewOnly as = true → ∀ a s', s.step a = some s' →
      ∃ msgs, s'.shared.out = s.shared.out ++ msgs ∧
        ∀ msg ∈ msgs, msg = Clipboard.capsMessage ∨ msg = Clipboard.requestMessage ∨
          (a.Says z (.extended .peek) ∧ ∃ available, msg = Clipboard.notifyMessage available)) ∧
    ∀ text, .clipboard text ∈ s.shared.events → ∃ a ∈ as, ∃ r, a.Says z r ∧ r.text = some text := by
  have ht := tracks h0 h
  exact ⟨fun _ _ => ht.request, fun _ => ht.peek, fun hview _ _ => ht.viewOnly_out hview, ht.reported⟩

/-! A session that is up, and messages a server may send in it. -/

def up : Shared storedCodec.toFlate := { Shared.new storedCodec.toFlate with running := true }

theorem up_fresh : up.Fresh := ⟨rfl, rfl, fun _ h => (by cases h)⟩

/-- Text and every action; of text none unasked. -/
def someCaps : Action := .cutText (-8) [0x1f, 0, 0, 1, 0, 0, 0, 0]
def textRequest : Action := .cutText (-4) [2, 0, 0, 1]
def somePeek : Action := .cutText (-4) [4, 0, 0, 0]
/-- The server's clipboard has no text. -/
def emptyNotify : Action := .cutText (-4) [8, 0, 0, 0]
def largeCutText : Action := .cutText (Shared.maxCutText + 1) (List.replicate (Shared.maxCutText + 1) 0)

/-- The last message queued after `as`. -/
def lastOut (as : List Action) : Option (List UInt8) :=
  (run step ⟨up, none⟩ as).bind fun s => s.shared.out.getLast?

theorem clipboard_protocol_some :
    ∃ s : Session storedCodec.toFlate, run step ⟨up, none⟩ [someCaps, .clipboard ['a'], .send] = some s ∧
      ∃ text, Current storedCodec.toFlate false [someCaps, .clipboard ['a'], .send] text ∧
        s.Sends textRequest [Clipboard.localText storedCodec.toFlate 0x1f000001 text] := by
  have hrequest : textRequest.Says storedCodec.toFlate (.extended (.request 1)) := ⟨_, _, rfl, rfl, rfl⟩
  have hrun : run step (⟨up, none⟩ : Session storedCodec.toFlate) [someCaps, .clipboard ['a'], .send] = some _ := rfl
  refine ⟨_, hrun, ?_⟩
  rcases (clipboard_protocol up_fresh hrun).1 textRequest 1 hrequest with ⟨text, hc, -, -, hsends⟩ | ⟨-, s', hs', hout⟩
  · exact ⟨text, hc, hsends⟩
  · cases hs'
    exact absurd (congrArg List.length hout) (by decide)

/-! ## The last copy of all

Copies made in view-only mode are not kept, nor are those sent plain before the
server's capabilities are known; a notify of other formats leaves this end's
text alone, and a cut text over the limit is skipped. -/

def Copies (a : Action) (text : Text) : Prop := ∃ copied, a = .clipboard copied ∧ text = Runtime.toLf copied

/-- Any copy, any notify and any plain cut text. -/
def Replaces (z : Flate) (a : Action) : Prop :=
  (∃ text, Copies a text) ∨ (∃ formats, a.Says z (.extended (.notify formats))) ∨
    ∃ length body, a = .cutText length body ∧ 0 ≤ length

def LastCopied (z : Flate) (as : List Action) (text : Text) : Prop :=
  LastSet (fun _ => Copies) (fun _ => Replaces z) as text

/-- What is not a copy of `text` leaves none that was not there. -/
theorem lastCopied_of_snoc {as : List Action} {a : Action} {text : Text} (ha : ¬Copies a text)
    (h : LastCopied z (as ++ [a]) text) : LastCopied z as text ∧ ¬Replaces z a :=
  (lastSet_snoc.1 h).resolve_left ha

/-- A message that is skipped changes no answer. -/
theorem lastOut_skipped {as bs : List Action} {a : Action} (h : a.Says storedCodec.toFlate .skipped) :
    lastOut (as ++ a :: bs) = lastOut (as ++ bs) := by
  have hstep : ∀ s : Session storedCodec.toFlate, s.step a = some s := fun _ => step_said h
  unfold lastOut
  rw [run_append, run_append]
  congr 2
  funext s
  rw [run_cons, hstep, Option.bind_some]

theorem said_largeCutText : largeCutText.Says storedCodec.toFlate .skipped := by
  refine ⟨_, _, rfl, ?_, rfl⟩
  rw [List.length_replicate]
  rfl

theorem not_last_copied :
    (lastOut [someCaps, .clipboard ['a'], .send, .setViewOnly true, .clipboard ['b'], .setViewOnly false,
        textRequest] = some (Clipboard.localText storedCodec.toFlate 0x1f000001 ['a']) ∧
      ¬LastCopied storedCodec.toFlate
        [someCaps, .clipboard ['a'], .send, .setViewOnly true, .clipboard ['b'], .setViewOnly false] ['a']) ∧
    (lastOut [someCaps, .clipboard ['a'], .send, emptyNotify, textRequest] =
        some (Clipboard.localText storedCodec.toFlate 0x1f000001 ['a']) ∧
      ¬LastCopied storedCodec.toFlate [someCaps, .clipboard ['a'], .send, emptyNotify] ['a']) ∧
    (lastOut [someCaps, .clipboard ['a'], .send, largeCutText, textRequest] =
        some (Clipboard.localText storedCodec.toFlate 0x1f000001 ['a']) ∧
      ¬LastCopied storedCodec.toFlate [someCaps, .clipboard ['a'], .send, largeCutText] ['a']) ∧
    (lastOut [.clipboard ['a'], .send, someCaps, somePeek] = some (Clipboard.notifyMessage false) ∧
      LastCopied storedCodec.toFlate [.clipboard ['a'], .send, someCaps] ['a']) := by
  have hother : ∀ a : Action, (∀ copied, a ≠ .clipboard copied) → ¬Copies a ['a'] := by
    rintro a ha ⟨copied, h, -⟩
    exact ha copied h
  refine ⟨⟨rfl, fun h => ?_⟩, ⟨rfl, fun h => ?_⟩, ⟨?_, fun h => ?_⟩, ⟨rfl, ?_⟩⟩
  · -- the copy made in view-only mode came after it
    have hb : ¬Copies (.clipboard ['b']) ['a'] := by
      rintro ⟨copied, h, htext⟩
      cases h
      exact absurd htext (by decide)
    have hlast := (@lastCopied_of_snoc _ [_, _, _, _, _] _ _ (hother (.setViewOnly false) nofun) h).1
    exact (@lastCopied_of_snoc _ [_, _, _, _] _ _ hb hlast).2 (.inl ⟨_, _, rfl, rfl⟩)
  · exact (@lastCopied_of_snoc _ [_, _, _] _ _ (hother emptyNotify nofun) h).2 (.inr (.inl ⟨0, _, _, rfl, rfl, rfl⟩))
  · exact (@lastOut_skipped [someCaps, .clipboard ['a'], .send] [textRequest] _ said_largeCutText).trans rfl
  · exact (@lastCopied_of_snoc _ [_, _, _] _ _ (hother largeCutText nofun) h).2 (.inr (.inr ⟨_, _, rfl, by decide⟩))
  · have hcaps : ¬Replaces storedCodec.toFlate someCaps := by
      rintro (⟨text, copied, h, -⟩ | ⟨formats, length, body, h, -, hr⟩ | ⟨length, body, h, hpos⟩)
      · cases h
      · cases h
        cases hr
      · cases h
        exact absurd hpos (by decide)
    have hsend : ¬Replaces storedCodec.toFlate .send := by
      rintro (⟨text, copied, h, -⟩ | ⟨formats, length, body, h, -⟩ | ⟨length, body, h, -⟩) <;> cases h
    exact (@lastSet_snoc _ _ _ _ [_, _] _ _).2 (.inr ⟨(@lastSet_snoc _ _ _ _ [_] _ _).2 (.inr
      ⟨(@lastSet_snoc _ _ _ _ [] _ _).2 (.inl ⟨_, rfl, rfl⟩), hsend⟩), hcaps⟩)

end Session

end Vento.Rfb
