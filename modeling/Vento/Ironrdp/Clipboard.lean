import Vento.Lib.Bytes
import Vento.Lib.Runs
import Vento.Lib.Utf16
import Vento.Rfb.ClipboardRoundTrip
/-!
# The clipboard channel of an RDP client

`ironrdp/src/clipboard.rs`, and the protocol thread's part of it in `client.rs`. The end that copies
announces formats, and the other asks for one of them. This end keeps one text, its own or the one it
received last, and one format that it asked for.

The channel is up: what a want is sent as is not refused. The remote answers what it is asked, once and in
order; a text that is reported is copied here in turn (`echo`), whenever this end gets to it.
-/

namespace Vento.Ironrdp.Clipboard

open Vento.Lib Vento.Runtime
open Vento.Rfb (Text)
open Vento.Rfb.Clipboard (utf8Bytes)

abbrev FormatId := UInt32

def cfText : FormatId := 1
def cfUnicodeText : FormatId := 13

/-- `runtime::MAX_CLIPBOARD`. -/
def maxClipboard : Nat := 1 <<< 20

/-! ## The two encodings -/

def utf16le (text : Text) : List UInt8 := (Utf16.encode text ++ [0]).flatMap fun u : UInt16 => toLeBytes 2 u.toNat

/-- `chunks_exact(2)`, as units. -/
def unitsOf : List UInt8 → List UInt16
  | a :: b :: bytes => UInt16.ofNat (fromLeBytes [a, b]) :: unitsOf bytes
  | _ => []

def fromUtf16le (bytes : List UInt8) : Text := Utf16.decodeLossy ((unitsOf bytes).takeWhile (· ≠ 0))

def latin1 (text : Text) : List UInt8 := (text.map fun c => if c.toNat < 0x100 then UInt8.ofNat c.toNat else 0x3f) ++ [0]

def fromLatin1 (bytes : List UInt8) : Text := (bytes.takeWhile (· ≠ 0)).map fun b => Char.ofNat b.toNat

/-- What the bytes of a response are in a format; `none` for one that is not asked for. -/
def decoded (format : FormatId) (bytes : List UInt8) : Option Text :=
  if format = cfUnicodeText then some (toLf (fromUtf16le bytes))
  else if format = cfText then some (toLf (fromLatin1 bytes))
  else none

/-! ## The state -/

inductive Want where
  | advertise
  | paste (format : FormatId)
  | send (format : FormatId)
deriving DecidableEq, Repr

structure Clip where
  /-- What this end last copied or received. -/
  ours : Option Text
  /-- The format asked for, as a response does not say it. -/
  pending : Option FormatId
  wants : List Want
  incoming : List Text
deriving DecidableEq, Repr

/-- A text that is passed on: not empty, and within the limit. -/
def passes (text : Text) : Bool := text ≠ [] ∧ (utf8Bytes text).length ≤ maxClipboard

/-- Unicode first. -/
def preferred (formats : List FormatId) : Option FormatId := [cfUnicodeText, cfText].find? (· ∈ formats)

namespace Clip

def setLocal (s : Clip) (text : Text) : Clip :=
  if text = [] then s
  else if (utf8Bytes text).length > maxClipboard then s
  else if s.ours = some text then s
  else { s with ours := some text, wants := s.wants ++ [.advertise] }

def formats (s : Clip) : List FormatId := if s.ours = none then [] else [cfUnicodeText, cfText]

def data (s : Clip) (format : FormatId) : Option (List UInt8) :=
  match s.ours with
  | none => none
  | some text =>
    if format = cfUnicodeText then some (utf16le (toCrlf text))
    else if format = cfText then some (latin1 (toCrlf text))
    else none

def onRemoteCopy (s : Clip) (available : List FormatId) : Clip :=
  match preferred available with
  | none => s
  | some format => { s with pending := some format, wants := s.wants ++ [.paste format] }

def onFormatDataRequest (s : Clip) (format : FormatId) : Clip := { s with wants := s.wants ++ [.send format] }

/-- `none` is an error response. -/
def onFormatDataResponse (s : Clip) (response : Option (List UInt8)) : Clip :=
  let format := s.pending
  let s := { s with pending := none }
  match response with
  | none => s
  | some bytes =>
    match format.bind (decoded · bytes) with
    | none => s
    | some text =>
      if text = [] then s
      else if (utf8Bytes text).length > maxClipboard then s
      else { s with ours := some text, incoming := s.incoming ++ [text] }

end Clip

/-! ## The session -/

/-- What is sent to the remote. -/
inductive Message where
  | formatList (formats : List FormatId)
  | dataRequest (format : FormatId)
  | dataResponse (data : Option (List UInt8))
deriving DecidableEq, Repr

/-- The end whose copy the remote's clipboard was last told of. -/
inductive Owner where
  | nobody | here | remote
deriving DecidableEq, Repr

structure Session where
  clip : Clip
  sent : List Message
  /-- The requests that the remote has not answered. -/
  asked : List FormatId
  /-- The requests that it has, with the answers. -/
  answered : List (FormatId × Option (List UInt8))
  reported : List Text
  /-- The reported texts that have not been copied here yet. -/
  echoes : List Text
  owner : Owner
deriving DecidableEq, Repr

/-- What happens: a copy on either end, the local copy that a reported text makes, the remote's requests and
answers, and the protocol thread going through the wants and through what came in. -/
inductive Act where
  | copy (text : Text)
  | echo
  | remoteCopy (available : List FormatId)
  | dataRequest (format : FormatId)
  | dataResponse (response : Option (List UInt8))
  | serve
  | report
deriving DecidableEq, Repr

namespace Session

def start : Session := ⟨⟨none, none, [], []⟩, [], [], [], [], [], .nobody⟩

/-- One want, encoded. -/
def serve (s : Session) : Want → Session
  | .advertise =>
    { s with sent := s.sent ++ [.formatList s.clip.formats], owner := if s.clip.formats = [] then .nobody else .here }
  | .paste format => { s with sent := s.sent ++ [.dataRequest format], asked := s.asked ++ [format] }
  | .send format => { s with sent := s.sent ++ [.dataResponse (s.clip.data format)] }

def step (s : Session) : Act → Option Session
  | .copy text => some { s with clip := s.clip.setLocal text }
  | .echo =>
    match s.echoes with
    | [] => none
    | text :: echoes => some { s with clip := s.clip.setLocal text, echoes }
  | .remoteCopy available => some { s with clip := s.clip.onRemoteCopy available, owner := .remote }
  | .dataRequest format => some { s with clip := s.clip.onFormatDataRequest format }
  | .dataResponse response =>
    match s.asked with
    | [] => none
    | format :: asked =>
      some { s with clip := s.clip.onFormatDataResponse response, asked, answered := s.answered ++ [(format, response)] }
  | .serve =>
    match s.clip.wants with
    | [] => none
    | want :: wants => some (({ s with clip := { s.clip with wants } } : Session).serve want)
  | .report =>
    match s.clip.incoming with
    | [] => none
    | text :: incoming =>
      some { s with clip := { s.clip with incoming }, reported := s.reported ++ [text], echoes := s.echoes ++ [text] }

end Session

/-! ## What a text is sent as -/

theorem unitsOf_flatMap (us : List UInt16) : unitsOf (us.flatMap fun u => toLeBytes 2 u.toNat) = us := by
  induction us with
  | nil => rfl
  | cons u us ih =>
    have hu : fromLeBytes (toLeBytes 2 u.toNat) = u.toNat := fromLeBytes_toLeBytes u.toNat_lt
    calc
      unitsOf ((u :: us).flatMap fun u => toLeBytes 2 u.toNat) =
          UInt16.ofNat (fromLeBytes (toLeBytes 2 u.toNat)) :: unitsOf (us.flatMap fun u => toLeBytes 2 u.toNat) := rfl
      _ = u :: us := by rw [hu, ih, UInt16.ofNat_toNat]

theorem fromUtf16le_utf16le {text : Text} (h : '\x00' ∉ text) : fromUtf16le (utf16le text) = text := by
  have hwhile : (Utf16.encode text ++ [0]).takeWhile (· ≠ 0) = Utf16.encode text := by
    rw [List.takeWhile_append_of_pos]
    · simp
    · intro u hu
      rw [decide_eq_true_eq]
      rintro rfl
      exact Utf16.zero_not_mem_encode h hu
  rw [fromUtf16le, utf16le, unitsOf_flatMap, hwhile, Utf16.decodeLossy_encode]

/-- A text without a NUL is read back with its line ends made one kind. -/
theorem decoded_utf16le {text : Text} (h : '\x00' ∉ text) :
    decoded cfUnicodeText (utf16le (toCrlf text)) = some (toLf text) := by
  have hcrlf : '\x00' ∉ toCrlf text := by
    intro hmem
    rcases mem_of_mem_toCrlf hmem with hc | hc | hc
    · exact h hc
    · exact absurd hc (by decide)
    · exact absurd hc (by decide)
  rw [decoded, if_pos rfl, fromUtf16le_utf16le hcrlf, toLf_toCrlf]

/-! ## One request at a time -/

def Want.paste? : Want → Option FormatId
  | .paste format => some format
  | _ => none

/-- The requests still to be sent. -/
def pastes (wants : List Want) : List FormatId := wants.filterMap Want.paste?

theorem pastes_cons (want : Want) (wants : List Want) : pastes (want :: wants) = want.paste?.toList ++ pastes wants := by
  cases want <;> rfl

theorem pastes_snoc (wants : List Want) (want : Want) : pastes (wants ++ [want]) = pastes wants ++ want.paste?.toList := by
  rw [pastes, List.filterMap_append]
  cases want <;> rfl

/-- The text of an answer to a request, if it is one to pass on. -/
def received (answer : FormatId × Option (List UInt8)) : Option Text :=
  (answer.2.bind (decoded answer.1)).filter passes

/-- The formats that the remote's copies of text were asked for in. -/
def copyFormats (acts : List Act) : List FormatId :=
  acts.filterMap fun
    | .remoteCopy available => preferred available
    | _ => none

namespace Session

/-- The remote copies text only when it was not asked for another. -/
def Apart (s : Session) : Act → Prop
  | .remoteCopy available => preferred available ≠ none → s.clip.pending = none
  | _ => True

instance (s : Session) : DecidablePred s.Apart
  | .remoteCopy _ => inferInstanceAs (Decidable (_ → _))
  | .copy _ | .echo | .dataRequest _ | .dataResponse _ | .serve | .report => isTrue trivial

/-- The one request that is out is the one that is pending; every copy of text was asked for, and every answer
that can be passed on was. -/
structure Paired (acts : List Act) (s : Session) : Prop where
  pending : s.asked ++ pastes s.clip.wants = s.clip.pending.toList
  copies : copyFormats acts = s.answered.map Prod.fst ++ s.asked ++ pastes s.clip.wants
  reported : s.reported ++ s.clip.incoming = s.answered.filterMap received

end Session

@[simp] theorem setLocal_pending (s : Clip) (text : Text) : (s.setLocal text).pending = s.pending := by
  unfold Clip.setLocal
  split_ifs <;> rfl

@[simp] theorem setLocal_incoming (s : Clip) (text : Text) : (s.setLocal text).incoming = s.incoming := by
  unfold Clip.setLocal
  split_ifs <;> rfl

@[simp] theorem setLocal_pastes (s : Clip) (text : Text) : pastes (s.setLocal text).wants = pastes s.wants := by
  unfold Clip.setLocal
  split_ifs <;> simp [pastes_snoc, Want.paste?]

@[simp] theorem onFormatDataResponse_pending (s : Clip) (response : Option (List UInt8)) :
    (s.onFormatDataResponse response).pending = none := by
  unfold Clip.onFormatDataResponse
  dsimp only
  split
  · rfl
  · split
    · rfl
    · split_ifs <;> rfl

@[simp] theorem onFormatDataResponse_wants (s : Clip) (response : Option (List UInt8)) :
    (s.onFormatDataResponse response).wants = s.wants := by
  unfold Clip.onFormatDataResponse
  dsimp only
  split
  · rfl
  · split
    · rfl
    · split_ifs <;> rfl

/-- A response is passed on as what it is in the format that is pending. -/
theorem onFormatDataResponse_incoming {s : Clip} {format : FormatId} (h : s.pending = some format)
    (response : Option (List UInt8)) :
    (s.onFormatDataResponse response).incoming = s.incoming ++ (received (format, response)).toList := by
  unfold Clip.onFormatDataResponse received
  dsimp only
  cases response with
  | none => simp
  | some bytes =>
    simp only [h, Option.bind_some]
    cases decoded format bytes with
    | none => simp
    | some text =>
      dsimp only
      split_ifs with hnil hlong
      · simp [Option.filter, passes, hnil]
      · have hnot : passes text = false := by simp [passes, hlong]
        simp [Option.filter, hnot]
      · have hpasses : passes text = true := by simpa [passes, hnil] using hlong
        simp [Option.filter, hpasses]

theorem copyFormats_snoc (acts : List Act) (a : Act) : copyFormats (acts ++ [a]) = copyFormats acts ++ copyFormats [a] :=
  List.filterMap_append

namespace Session

variable {acts : List Act} {a : Act} {s s' : Session}

theorem paired_start : Paired [] start := ⟨rfl, rfl, rfl⟩

theorem Paired.setLocal (h : Paired acts s) (ha : copyFormats [a] = []) (text : Text) (echoes : List Text) :
    Paired (acts ++ [a]) { s with clip := s.clip.setLocal text, echoes } where
  pending := by simpa using h.pending
  copies := by
    rw [copyFormats_snoc, ha, List.append_nil]
    simpa using h.copies
  reported := by simpa using h.reported

theorem Paired.remoteCopy (h : Paired acts s) {available : List FormatId} (hc : s.Apart (.remoteCopy available)) :
    Paired (acts ++ [.remoteCopy available]) { s with clip := s.clip.onRemoteCopy available, owner := .remote } := by
  unfold Clip.onRemoteCopy
  cases hp : preferred available with
  | none =>
    refine ⟨h.pending, ?_, h.reported⟩
    rw [copyFormats_snoc, h.copies]
    simp [copyFormats, hp]
  | some format =>
    have hnone : s.clip.pending = none := hc (by simp [hp])
    have hnil : s.asked ++ pastes s.clip.wants = [] := by
      rw [h.pending, hnone]
      rfl
    obtain ⟨hasked, hpastes⟩ := List.append_eq_nil_iff.mp hnil
    refine ⟨?_, ?_, h.reported⟩
    · simp [pastes_snoc, hasked, hpastes, Want.paste?]
    · rw [copyFormats_snoc, h.copies]
      simp [pastes_snoc, hasked, hpastes, Want.paste?, copyFormats, hp]

theorem Paired.dataResponse (h : Paired acts s) {format : FormatId} {asked : List FormatId} (ha : s.asked = format :: asked)
    (response : Option (List UInt8)) :
    s.clip.pending = some format ∧ Paired (acts ++ [.dataResponse response])
      { s with clip := s.clip.onFormatDataResponse response, asked, answered := s.answered ++ [(format, response)] } := by
  have hlist := h.pending
  rw [ha, List.cons_append] at hlist
  obtain ⟨hpending, hnil⟩ : s.clip.pending = some format ∧ asked ++ pastes s.clip.wants = [] := by
    cases hp : s.clip.pending with
    | none =>
      rw [hp] at hlist
      cases hlist
    | some f =>
      rw [hp, Option.toList_some] at hlist
      obtain ⟨rfl, hnil⟩ := List.cons.inj hlist
      exact ⟨rfl, hnil⟩
  obtain ⟨hasked, hpastes⟩ := List.append_eq_nil_iff.mp hnil
  refine ⟨hpending, ?_, ?_, ?_⟩
  · simp [hasked, hpastes]
  · rw [copyFormats_snoc, h.copies, ha, hasked, hpastes]
    simp [copyFormats, hpastes]
  · rw [onFormatDataResponse_incoming hpending, ← List.append_assoc, h.reported, List.filterMap_append]
    cases hr : received (format, response) <;> simp [hr]

theorem Paired.serve (h : Paired acts s) {want : Want} {wants : List Want} (hw : s.clip.wants = want :: wants) :
    Paired (acts ++ [.serve]) (({ s with clip := { s.clip with wants } } : Session).serve want) := by
  have hpending := h.pending
  have hcopies := h.copies
  rw [hw, pastes_cons] at hpending hcopies
  cases want with
  | advertise =>
    refine ⟨hpending, ?_, h.reported⟩
    rw [copyFormats_snoc, hcopies]
    simp [Session.serve, Want.paste?, copyFormats]
  | paste format =>
    refine ⟨?_, ?_, h.reported⟩
    · simpa [Session.serve, Want.paste?] using hpending
    · rw [copyFormats_snoc, hcopies]
      simp [Session.serve, Want.paste?, copyFormats]
  | send format =>
    refine ⟨hpending, ?_, h.reported⟩
    rw [copyFormats_snoc, hcopies]
    simp [Session.serve, Want.paste?, copyFormats]

theorem paired_step (h : Paired acts s) (hc : s.Apart a) (hs : s.step a = some s') : Paired (acts ++ [a]) s' := by
  cases a with
  | copy text =>
    cases hs
    exact h.setLocal rfl text s.echoes
  | echo =>
    unfold step at hs
    dsimp only at hs
    split at hs
    · cases hs
    · cases hs
      exact h.setLocal rfl _ _
  | remoteCopy available =>
    cases hs
    exact h.remoteCopy hc
  | dataRequest format =>
    cases hs
    refine ⟨?_, ?_, h.reported⟩
    · simpa [Clip.onFormatDataRequest, pastes_snoc, Want.paste?] using h.pending
    · rw [copyFormats_snoc, h.copies]
      simp [Clip.onFormatDataRequest, pastes_snoc, Want.paste?, copyFormats]
  | dataResponse response =>
    unfold step at hs
    dsimp only at hs
    split at hs
    · cases hs
    · rename_i ha
      cases hs
      exact (h.dataResponse ha response).2
  | serve =>
    unfold step at hs
    dsimp only at hs
    split at hs
    · cases hs
    · rename_i hw
      cases hs
      exact h.serve hw
  | report =>
    unfold step at hs
    dsimp only at hs
    split at hs
    · cases hs
    · rename_i text incoming hi
      cases hs
      refine ⟨h.pending, ?_, ?_⟩
      · rw [copyFormats_snoc, h.copies]
        simp [copyFormats]
      · rw [← h.reported, hi]
        simp

end Session

/-! ## Whose clipboard it is -/

def Act.isRemoteCopy : Act → Bool
  | .remoteCopy _ => true
  | _ => false

/-- The act may put another text on this end's clipboard. -/
def Act.sets : Act → Bool
  | .copy _ | .echo | .dataResponse _ => true
  | _ => false

theorem setLocal_of_passes {s : Clip} {text : Text} (hp : passes text = true) (hne : s.ours ≠ some text) :
    s.setLocal text = { s with ours := some text, wants := s.wants ++ [.advertise] } := by
  simp only [passes, decide_eq_true_eq] at hp
  rw [Clip.setLocal, if_neg hp.1, if_neg (Nat.not_lt.mpr hp.2), if_neg hne]

theorem advertise_mem_setLocal {s : Clip} (text : Text) (h : Want.advertise ∈ s.wants) :
    Want.advertise ∈ (s.setLocal text).wants := by
  unfold Clip.setLocal
  split_ifs
  · exact h
  · exact h
  · exact h
  · exact List.mem_append_left _ h

theorem setLocal_ours_ne_none {s : Clip} (text : Text) (h : s.ours ≠ none) : (s.setLocal text).ours ≠ none := by
  unfold Clip.setLocal
  split_ifs
  · exact h
  · exact h
  · exact h
  · nofun

theorem onFormatDataResponse_ours_ne_none {s : Clip} (response : Option (List UInt8)) (h : s.ours ≠ none) :
    (s.onFormatDataResponse response).ours ≠ none := by
  unfold Clip.onFormatDataResponse
  dsimp only
  split
  · exact h
  · split
    · exact h
    · split_ifs
      · exact h
      · exact h
      · nofun

namespace Session

variable {acts : List Act} {a : Act} {s s' : Session}

/-- This end's copy is announced, or is going to be. -/
structure Told (s : Session) : Prop where
  announced : Want.advertise ∈ s.clip.wants ∨ s.owner = .here
  copied : s.clip.ours ≠ none

theorem Told.setLocal (h : s.Told) (text : Text) (echoes : List Text) :
    Told { s with clip := s.clip.setLocal text, echoes } :=
  ⟨h.announced.imp_left (advertise_mem_setLocal text), setLocal_ours_ne_none text h.copied⟩

theorem Told.serve (h : s.Told) {want : Want} {wants : List Want} (hw : s.clip.wants = want :: wants) :
    (({ s with clip := { s.clip with wants } } : Session).serve want).Told := by
  refine ⟨?_, by cases want <;> exact h.copied⟩
  have hannounced := h.announced
  rw [hw, List.mem_cons] at hannounced
  cases want with
  | advertise =>
    -- something is on this clipboard, so the list is not empty
    refine Or.inr ?_
    simp [Session.serve, Clip.formats, h.copied]
  | paste format => exact hannounced.imp_left fun hm => hm.resolve_left nofun
  | send format => exact hannounced.imp_left fun hm => hm.resolve_left nofun

theorem told_step (h : s.Told) (ha : a.isRemoteCopy = false) (hs : s.step a = some s') : s'.Told := by
  cases a with
  | copy text =>
    cases hs
    exact h.setLocal text s.echoes
  | echo =>
    unfold step at hs
    dsimp only at hs
    split at hs
    · cases hs
    · cases hs
      exact h.setLocal _ _
  | remoteCopy available => cases ha
  | dataRequest format =>
    cases hs
    exact ⟨h.announced.imp_left (List.mem_append_left _), h.copied⟩
  | dataResponse response =>
    unfold step at hs
    dsimp only at hs
    split at hs
    · cases hs
    · cases hs
      refine ⟨?_, onFormatDataResponse_ours_ne_none response h.copied⟩
      rw [onFormatDataResponse_wants]
      exact h.announced
  | serve =>
    unfold step at hs
    dsimp only at hs
    split at hs
    · cases hs
    · rename_i hw
      cases hs
      exact h.serve hw
  | report =>
    unfold step at hs
    dsimp only at hs
    split at hs
    · cases hs
    · cases hs
      exact ⟨h.announced, h.copied⟩

theorem ours_step (ha : a.sets = false) (hs : s.step a = some s') : s'.clip.ours = s.clip.ours := by
  cases a with
  | copy text => cases ha
  | echo => cases ha
  | dataResponse response => cases ha
  | remoteCopy available =>
    cases hs
    show (s.clip.onRemoteCopy available).ours = _
    unfold Clip.onRemoteCopy
    split <;> rfl
  | dataRequest format =>
    cases hs
    rfl
  | serve =>
    unfold step at hs
    dsimp only at hs
    split at hs
    · cases hs
    · rename_i want wants hw
      cases hs
      cases want <;> rfl
  | report =>
    unfold step at hs
    dsimp only at hs
    split at hs
    · cases hs
    · cases hs
      rfl

/-- What every one of a list of acts keeps is kept by the run of them. -/
theorem run_keeps {P : Session → Prop} {ok : Act → Bool}
    (hstep : ∀ s a s', P s → ok a = false → step s a = some s' → P s') (ha : ∀ a ∈ acts, ok a = false) (h : P s)
    (hr : run step s acts = some s') : P s' := by
  induction acts generalizing s with
  | nil =>
    cases hr
    exact h
  | cons a acts ih =>
    obtain ⟨u, hu, hr⟩ := run_cons_some hr
    obtain ⟨hfirst, hrest⟩ := List.forall_mem_cons.mp ha
    exact ih hrest (hstep s a u h hfirst hu) hr

/-! ## What comes back -/

/-- This end gets another text, by a copy or from the remote, only when no text that it received is still to be
reported or copied. -/
def Settled (s : Session) : Act → Prop
  | .copy text => (s.clip.setLocal text).ours ≠ s.clip.ours → s.clip.incoming = [] ∧ s.echoes = []
  | .dataResponse response =>
    (s.clip.onFormatDataResponse response).ours ≠ s.clip.ours → s.clip.incoming = [] ∧ s.echoes = []
  | _ => True

instance (s : Session) : DecidablePred s.Settled
  | .copy _ => inferInstanceAs (Decidable (_ → _))
  | .dataResponse _ => inferInstanceAs (Decidable (_ → _))
  | .echo | .remoteCopy _ | .dataRequest _ | .serve | .report => isTrue trivial

/-- What was received and is still to be copied is what this end has. -/
def Echoing (s : Session) : Prop := ∀ text ∈ s.clip.incoming ++ s.echoes, s.clip.ours = some text

theorem setLocal_of_ours {s : Clip} {text : Text} (h : s.ours = some text) : s.setLocal text = s := by
  unfold Clip.setLocal
  split_ifs <;> rfl

/-- A response leaves what came in and this end's text as they were, or its text is both. -/
theorem onFormatDataResponse_cases (s : Clip) (response : Option (List UInt8)) :
    ((s.onFormatDataResponse response).ours = s.ours ∧ (s.onFormatDataResponse response).incoming = s.incoming) ∨
      ∃ text, (s.onFormatDataResponse response).ours = some text ∧
        (s.onFormatDataResponse response).incoming = s.incoming ++ [text] := by
  unfold Clip.onFormatDataResponse
  dsimp only
  split
  · exact Or.inl ⟨rfl, rfl⟩
  · split
    · exact Or.inl ⟨rfl, rfl⟩
    · split_ifs
      · exact Or.inl ⟨rfl, rfl⟩
      · exact Or.inl ⟨rfl, rfl⟩
      · exact Or.inr ⟨_, rfl, rfl⟩

theorem echoing_step (h : s.Echoing) (hc : s.Settled a) (hs : s.step a = some s') : s'.Echoing := by
  cases a with
  | copy text =>
    cases hs
    intro text' hmem
    rw [setLocal_incoming] at hmem
    by_cases heq : (s.clip.setLocal text).ours = s.clip.ours
    · exact heq.trans (h text' hmem)
    · obtain ⟨hi, he⟩ := hc heq
      rw [hi, he] at hmem
      cases hmem
  | echo =>
    unfold step at hs
    dsimp only at hs
    split at hs
    · cases hs
    · rename_i text echoes he
      cases hs
      have hours : s.clip.ours = some text := h text (by rw [he]; simp)
      intro text' hmem
      rw [setLocal_of_ours hours] at hmem ⊢
      refine h text' ?_
      rw [he]
      rcases List.mem_append.mp hmem with hi | he'
      · exact List.mem_append_left _ hi
      · exact List.mem_append_right _ (List.mem_cons_of_mem _ he')
  | dataResponse response =>
    unfold step at hs
    dsimp only at hs
    split at hs
    · cases hs
    · cases hs
      intro text' hmem
      rcases onFormatDataResponse_cases s.clip response with ⟨hours, hin⟩ | ⟨text, hours, hin⟩
      · rw [hin] at hmem
        exact hours.trans (h text' hmem)
      · by_cases heq : (s.clip.onFormatDataResponse response).ours = s.clip.ours
        · rw [hin, List.append_assoc, List.mem_append] at hmem
          rcases hmem with hi | hrest
          · exact heq.trans (h text' (List.mem_append_left _ hi))
          · rcases List.mem_cons.mp hrest with rfl | he
            · exact hours
            · exact heq.trans (h text' (List.mem_append_right _ he))
        · obtain ⟨hi, he⟩ := hc heq
          rw [hin, hi, he] at hmem
          cases List.mem_singleton.mp hmem
          exact hours
  | remoteCopy available =>
    cases hs
    intro text' hmem
    have hclip : (s.clip.onRemoteCopy available).ours = s.clip.ours ∧
        (s.clip.onRemoteCopy available).incoming = s.clip.incoming := by
      unfold Clip.onRemoteCopy
      split <;> exact ⟨rfl, rfl⟩
    rw [hclip.2] at hmem
    exact hclip.1.trans (h text' hmem)
  | dataRequest format =>
    cases hs
    exact h
  | serve =>
    unfold step at hs
    dsimp only at hs
    split at hs
    · cases hs
    · rename_i want wants hw
      cases hs
      cases want <;> exact h
  | report =>
    unfold step at hs
    dsimp only at hs
    split at hs
    · cases hs
    · rename_i text incoming hi
      cases hs
      intro text' hmem
      refine h text' ?_
      rw [hi]
      have hmem' : text' ∈ incoming ++ (s.echoes ++ [text]) := hmem
      simp only [List.mem_append, List.mem_cons, List.not_mem_nil, or_false] at hmem' ⊢
      tauto

theorem echo_silent (h : s.Echoing) (hs : s.step .echo = some s') : s'.clip = s.clip := by
  unfold step at hs
  dsimp only at hs
  split at hs
  · cases hs
  · rename_i text echoes he
    cases hs
    exact setLocal_of_ours (h text (by rw [he]; simp))

/-- A text copied by the remote, received, reported and copied here in turn. -/
def fromRemote : List Act :=
  [.remoteCopy [cfText, cfUnicodeText], .serve, .dataResponse (some (utf16le ['a'])), .report, .echo]

end Session

end Vento.Ironrdp.Clipboard
