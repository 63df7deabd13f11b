import Vento.Control.KeySink
import Vento.Lib.Runs
import Vento.Lib.Utf16
/-!
# Text from the input method

`control/input/TextDelta.java`, which remembers what of the composing region has
been sent and sends each revision of it as a difference, and the parts of
`control/ui/TextInput.java` that hand it the input method's text and type what
it makes of it. The far end is a document, of which it sees key presses only.

Tracing is left out, and so are the calls that have no text: the editor's
action, pasting and key events.
-/

namespace Vento.Control

open Vento.Lib Utf16

/-- A text of the input method's, in UTF-16. -/
abbrev CharSequence := List UInt16

/-! ## The difference -/

namespace TextDelta

/-- `TextDelta.Out`. -/
inductive Out where
  | backspace
  | character (codePoint : UInt32)
deriving DecidableEq, Repr

/-- How many units two texts have in common at their start. -/
def commonPrefix : CharSequence → CharSequence → Nat
  | c :: cs, d :: ds => if c = d then commonPrefix cs ds + 1 else 0
  | _, _ => 0

/-- The same, without the half of a pair that it may end with. -/
def common (sent next : CharSequence) : Nat :=
  let common := commonPrefix sent next
  if common > 0 && (sent[common - 1]?.map isHighSurrogate).getD false then common - 1 else common

/-- `replace`: what goes out for the region to become `next`. The backspaces are
counted from the end of what was sent. -/
def replace (sent next : CharSequence) : List Out :=
  let common := common sent next
  List.replicate (countBefore sent.reverse (sent.length - common)) .backspace ++
    (codePoints (next.drop common)).map .character

end TextDelta

/-! ## The input connection -/

/-- What a `TextInput` is run with: the other keyboard, which is told of every key
and may hold modifiers, and the case mappings of `java.lang.Character`. -/
structure Host where
  Watcher : Type
  heldModifiers : Watcher → List UInt32
  sent : Watcher → UInt32 → Watcher
  toUpperCase : UInt32 → UInt32
  toLowerCase : UInt32 → UInt32

/-- What the region's memory is, the other keyboard, and the calls of the sink so
far. -/
structure TextInput (h : Host) where
  delta : CharSequence
  watcher : h.Watcher
  sink : List KeyCall

namespace TextInput

variable {h : Host}

def shiftHeld (s : TextInput h) : Bool := Keysym.shiftL ∈ h.heldModifiers s.watcher

def otherModifierHeld (s : TextInput h) : Bool :=
  let held := h.heldModifiers s.watcher
  !held.isEmpty && !(Keysym.shiftL ∈ held)

/-- `Keysym.forCharacter` while another keyboard may hold modifiers. -/
def forCharacter (s : TextInput h) (cp : UInt32) : UInt32 :=
  if s.shiftHeld then Keysym.forCharacter (h.toUpperCase cp)
  else if s.otherModifierHeld then Keysym.forCharacter (h.toLowerCase cp)
  else Keysym.forCharacter cp

def send (s : TextInput h) (keysym : UInt32) : TextInput h :=
  if keysym = 0 then s
  else
    { s with
      sink := s.sink ++ [.keyDown keysym KeySink.idText, .keyUp KeySink.idText]
      watcher := h.sent s.watcher keysym }

/-- The `TextDelta.Out` of an input connection. -/
def out (s : TextInput h) : TextDelta.Out → TextInput h
  | .backspace => s.send Keysym.backspace
  | .character codePoint => s.send (s.forCharacter codePoint)

def replace (s : TextInput h) (text : Option CharSequence) : TextInput h :=
  let next := text.getD []
  { (TextDelta.replace s.delta next).foldl out s with delta := next }

def setComposingText (s : TextInput h) (text : Option CharSequence) : TextInput h := s.replace text

def commitText (s : TextInput h) (text : Option CharSequence) : TextInput h := { s.replace text with delta := [] }

def finishComposingText (s : TextInput h) : TextInput h := { s with delta := [] }

/-- `deleteSurroundingText`, also in code points. -/
def deleteSurroundingText (s : TextInput h) (beforeLength afterLength : Int) : TextInput h :=
  (List.replicate beforeLength.toNat Keysym.backspace ++ List.replicate afterLength.toNat Keysym.delete).foldl send
    { s with delta := [] }

/-- What an input method asks for. -/
inductive Op where
  | compose (text : Option CharSequence)
  | commit (text : Option CharSequence)
  | deleteBefore (length : Int)
  | finish
deriving DecidableEq, Repr

def step (s : TextInput h) : Op → Option (TextInput h)
  | .compose text => some (s.setComposingText text)
  | .commit text => some (s.commitText text)
  | .deleteBefore length => some (s.deleteSurroundingText length 0)
  | .finish => some s.finishComposingText

end TextInput

/-! ## The far end -/

/-- The code points of a document. -/
abbrev Document := List UInt32

namespace Document

/-- The character of a keysym. -/
def character (keysym : UInt32) : UInt32 :=
  if keysym = Keysym.return' then 0x0a
  else if keysym = Keysym.tab then 0x09
  else if keysym = Keysym.escape then 0x1b
  else if keysym = Keysym.delete then 0x7f
  else if 0x01000000 ≤ keysym then keysym - 0x01000000
  else keysym

def press (doc : Document) (keysym : UInt32) : Document :=
  if keysym = Keysym.backspace then doc.dropLast else doc ++ [character keysym]

def call (doc : Document) : KeyCall → Document
  | .keyDown keysym _ => doc.press keysym
  | .keyUp _ => doc

/-- What is there after the calls of a sink. -/
def after (doc : Document) (sink : List KeyCall) : Document := sink.foldl call doc

/-- What is there after the keys for a text: nothing more for a character that
has no key. -/
def type (doc : Document) (codePoints : List UInt32) : Document :=
  codePoints.foldl (fun doc cp => if Keysym.forCharacter cp = 0 then doc else doc.press (Keysym.forCharacter cp)) doc

end Document

/-! ## One update -/

namespace TextDelta

theorem take_commonPrefix (sent next : CharSequence) :
    sent.take (commonPrefix sent next) = next.take (commonPrefix sent next) := by
  fun_induction commonPrefix sent next with
  | case1 c cs ds ih => rw [List.take_succ_cons, List.take_succ_cons, ih]
  | case2 c cs d ds hne => rfl
  | case3 sent next _ => rfl

theorem commonPrefix_le (sent next : CharSequence) : commonPrefix sent next ≤ sent.length := by
  fun_induction commonPrefix sent next with
  | case1 c cs ds ih => exact Nat.succ_le_succ ih
  | case2 c cs d ds hne => exact Nat.zero_le _
  | case3 sent next _ => exact Nat.zero_le _

/-- Where the common part ends in a high surrogate the cut is before it. -/
theorem common_cases (sent next : CharSequence) :
    (common sent next = commonPrefix sent next ∧
      ∀ c ∈ (sent.take (common sent next)).getLast?, isHighSurrogate c = false) ∨
    (commonPrefix sent next = common sent next + 1 ∧
      ∃ c, isHighSurrogate c = true ∧ sent[common sent next]? = some c) := by
  have hle := commonPrefix_le sent next
  unfold common
  generalize commonPrefix sent next = n at hle
  simp only
  split
  · rename_i hhigh
    simp only [Bool.and_eq_true, decide_eq_true_eq] at hhigh
    refine .inr ⟨by omega, ?_⟩
    cases hget : sent[n - 1]? with
    | none =>
      rw [hget] at hhigh
      exact absurd hhigh.2 Bool.false_ne_true
    | some c =>
      rw [hget] at hhigh
      exact ⟨c, hhigh.2, rfl⟩
  · rename_i hhigh
    refine .inl ⟨rfl, fun c hc => ?_⟩
    rw [List.getLast?_take] at hc
    by_cases hn : n = 0
    · rw [if_pos hn] at hc
      cases hc
    · obtain ⟨d, hd⟩ : ∃ d, sent[n - 1]? = some d := ⟨_, List.getElem?_eq_getElem (show n - 1 < sent.length by omega)⟩
      rw [if_neg hn, hd, Option.some_or] at hc
      cases hc
      simpa [hd, Nat.pos_of_ne_zero hn] using hhigh

theorem take_common (sent next : CharSequence) : sent.take (common sent next) = next.take (common sent next) := by
  have hle : common sent next ≤ commonPrefix sent next := by
    rcases common_cases sent next with ⟨heq, -⟩ | ⟨heq, -⟩ <;> omega
  have htake := congrArg (List.take (common sent next)) (take_commonPrefix sent next)
  rwa [List.take_take, List.take_take, Nat.min_eq_left hle] at htake

/-- A revision never cuts a pair in two, neither of what was sent nor of what is
meant. -/
theorem between_common (sent next : CharSequence) :
    Between (sent.take (common sent next)) (sent.drop (common sent next)) ∧
    Between (next.take (common sent next)) (next.drop (common sent next)) := by
  rw [← take_common]
  rcases common_cases sent next with ⟨-, hlast⟩ | ⟨heq, c, hhigh, hget⟩
  · exact ⟨between_of_not_high hlast, between_of_not_high hlast⟩
  · -- the cut is before a high surrogate, which both have there
    have hnext : next[common sent next]? = some c := by
      have htake := congrArg (fun text => text[common sent next]?) (take_commonPrefix sent next)
      simp only [List.getElem?_take, heq, Nat.lt_succ_self, if_true] at htake
      rw [← htake, hget]
    constructor
    · apply between_of_not_low
      rw [List.head?_drop, hget]
      rintro _ ⟨⟩
      exact not_low_of_high hhigh
    · apply between_of_not_low
      rw [List.head?_drop, hnext]
      rintro _ ⟨⟩
      exact not_low_of_high hhigh

theorem codePoints_split {text : CharSequence} {k : Nat} (h : Between (text.take k) (text.drop k)) :
    codePoints text = codePoints (text.take k) ++ codePoints (text.drop k) := by
  rw [← codePoints_append h, List.take_append_drop]

/-- What is taken back and typed anew: as many backspaces as there are code points
in what is not common, and the rest of what is meant. -/
theorem replace_eq (sent next : CharSequence) :
    replace sent next = List.replicate (codePoints (sent.drop (common sent next))).length .backspace ++
      (codePoints (next.drop (common sent next))).map .character := by
  have hcount := countBefore_eq (between_common sent next).1
  rw [List.take_append_drop, List.length_drop] at hcount
  unfold replace
  simp only [hcount]

end TextDelta

/-! ## Characters -/

/-- A character whose key appends one to the document. -/
def Typed (cp : UInt32) : Prop := Keysym.forCharacter cp ≠ 0 ∧ Keysym.forCharacter cp ≠ Keysym.backspace

instance : DecidablePred Typed := fun cp =>
  inferInstanceAs (Decidable (Keysym.forCharacter cp ≠ 0 ∧ Keysym.forCharacter cp ≠ Keysym.backspace))

/-- Tab, newline and escape, and what is no control character. -/
def Plain (cp : UInt32) : Prop := cp = 0x09 ∨ cp = 0x0a ∨ cp = 0x1b ∨ 0x20 ≤ cp

theorem and_combiningAccent {cp : UInt32} (h : cp.toNat < 0x110000) : cp &&& Keysym.combiningAccent = 0 := by
  apply UInt32.toNat_inj.1
  rw [UInt32.toNat_and, show Keysym.combiningAccent.toNat = 2 ^ 31 from rfl]
  apply Nat.eq_of_testBit_eq
  intro i
  rw [Nat.testBit_and, Nat.testBit_two_pow]
  by_cases hi : 31 = i
  · subst hi
    rw [Nat.testBit_lt_two_pow (show cp.toNat < 2 ^ 31 by omega)]
    rfl
  · simp [hi]

theorem fromUnicode_cases {cp : UInt32} (h : cp.toNat < 0x110000) :
    (Keysym.fromUnicode cp = cp ∧ 0x20 ≤ cp.toNat ∧ cp.toNat ≤ 0xff) ∨
      (Keysym.fromUnicode cp).toNat = 0x01000000 + cp.toNat := by
  unfold Keysym.fromUnicode
  split
  · rename_i hlatin
    simp only [UInt32.le_iff_toNat_le, UInt32.reduceToNat] at hlatin
    exact .inl ⟨rfl, by omega⟩
  · have hor := Nat.two_pow_add_eq_or_of_lt (show cp.toNat < 2 ^ 24 by omega) 1
    rw [UInt32.toNat_or, show UInt32.toNat 0x01000000 = 2 ^ 24 * 1 from rfl, ← hor]
    exact .inr rfl

theorem forCharacter_eq {cp : UInt32} (h : cp.toNat < 0x110000) (hlow : 0x20 ≤ cp.toNat) (hne : cp ≠ 0x7f) :
    Keysym.forCharacter cp = Keysym.fromUnicode cp := by
  have hcontrol : ∀ c : UInt32, c.toNat < 0x20 → cp ≠ c := by
    rintro c hc rfl
    omega
  unfold Keysym.forCharacter Keysym.fromKeyChar
  rw [if_neg (not_or.2 ⟨hcontrol _ (by decide), hcontrol _ (by decide)⟩), if_neg (hcontrol _ (by decide)),
    if_neg (hcontrol _ (by decide)), if_neg (hcontrol _ (by decide)), if_neg hne, if_pos, if_neg (hcontrol _ (by decide)),
    if_neg (by rw [and_combiningAccent h]; exact fun hne => hne rfl)]
  left
  simp only [UInt32.le_iff_toNat_le, UInt32.lt_iff_toNat_lt, UInt32.reduceToNat]
  omega

/-- A plain character types itself. -/
theorem Plain.typed {cp : UInt32} (h : Plain cp) (hlt : cp.toNat < 0x110000) :
    Typed cp ∧ Document.character (Keysym.forCharacter cp) = cp := by
  rcases h with rfl | rfl | rfl | hlow
  · decide
  · decide
  · decide
  · simp only [UInt32.le_iff_toNat_le, UInt32.reduceToNat] at hlow
    by_cases hdel : cp = 0x7f
    · subst hdel
      decide
    · -- a keysym of Latin-1, or one beyond all that have a name
      unfold Typed Document.character
      rw [forCharacter_eq hlt hlow hdel]
      have hnamed : ∀ k : UInt32, 0xff < k.toNat → k.toNat < 0x01000000 → Keysym.fromUnicode cp ≠ k := by
        rintro k hk hk' rfl
        rcases fromUnicode_cases hlt with ⟨heq, -, hle⟩ | heq
        · rw [heq] at hk
          omega
        · omega
      refine ⟨⟨?_, hnamed _ (by decide) (by decide)⟩, ?_⟩
      · intro hzero
        rcases fromUnicode_cases hlt with ⟨heq, -⟩ | heq
        · rw [heq] at hzero
          rw [hzero] at hlow
          exact absurd hlow (by decide)
        · rw [hzero, UInt32.toNat_zero] at heq
          omega
      · rw [if_neg (hnamed _ (by decide) (by decide)), if_neg (hnamed _ (by decide) (by decide)),
          if_neg (hnamed _ (by decide) (by decide)), if_neg (hnamed _ (by decide) (by decide))]
        rcases fromUnicode_cases hlt with ⟨heq, -, hle⟩ | heq
        · rw [heq, if_neg]
          simp only [UInt32.le_iff_toNat_le, UInt32.reduceToNat]
          omega
        · have hbig : (0x01000000 : UInt32) ≤ Keysym.fromUnicode cp := by
            simp only [UInt32.le_iff_toNat_le, UInt32.reduceToNat, heq]
            omega
          rw [if_pos hbig]
          apply UInt32.toNat_inj.1
          rw [UInt32.toNat_sub_of_le _ _ hbig, heq]
          simp only [UInt32.reduceToNat]
          omega

/-! ## Documents -/

namespace Document

theorem type_append (doc : Document) (cps cps' : List UInt32) : doc.type (cps ++ cps') = (doc.type cps).type cps' :=
  List.foldl_append

theorem type_typed (doc : Document) {cps : List UInt32} (h : ∀ cp ∈ cps, Typed cp) :
    doc.type cps = doc ++ cps.map fun cp => character (Keysym.forCharacter cp) := by
  induction cps generalizing doc with
  | nil => exact (List.append_nil doc).symm
  | cons cp cps ih =>
    obtain ⟨hkey, hback⟩ := h cp List.mem_cons_self
    show (if Keysym.forCharacter cp = 0 then doc else doc.press (Keysym.forCharacter cp)).type cps = _
    rw [if_neg hkey, press, if_neg hback, ih _ fun c hc => h c (List.mem_cons_of_mem _ hc), List.append_assoc]
    rfl

/-- Backspaces, one after another. -/
def backspaces (doc : Document) (n : Nat) : Document := doc.take (doc.length - n)

theorem backspaces_succ (doc : Document) (n : Nat) : backspaces doc.dropLast n = doc.backspaces (n + 1) := by
  unfold backspaces
  rw [List.dropLast_eq_take, List.take_take, List.length_take]
  congr 1
  omega

/-- Backspaces take back what was typed last, if that was a character each. -/
theorem backspaces_type (doc : Document) (cps : List UInt32) {taken : List UInt32} (h : ∀ cp ∈ taken, Typed cp) :
    (doc.type (cps ++ taken)).backspaces taken.length = doc.type cps := by
  rw [type_append, type_typed _ h, backspaces]
  exact List.take_left' (by rw [List.length_append, List.length_map, Nat.add_sub_cancel])

end Document

namespace TextInput

variable {h : Host}

/-- What the far end has after all that was sent, if it had `doc` before. -/
def document (s : TextInput h) (doc : Document) : Document := doc.after s.sink

theorem send_document (s : TextInput h) (keysym : UInt32) (doc : Document) :
    (s.send keysym).document doc = if keysym = 0 then s.document doc else (s.document doc).press keysym := by
  unfold send
  split
  · rfl
  · unfold document Document.after
    rw [List.foldl_append]
    rfl

theorem send_delta (s : TextInput h) (keysym : UInt32) : (s.send keysym).delta = s.delta := by
  unfold send
  split <;> rfl

/-- The other keyboard holds no modifier, whatever is typed. -/
def Idle (s : TextInput h) : Prop := ∀ keysyms : List UInt32, h.heldModifiers (keysyms.foldl h.sent s.watcher) = []

theorem Idle.send {s : TextInput h} (hs : s.Idle) (keysym : UInt32) : (s.send keysym).Idle := by
  unfold TextInput.send
  split
  · exact hs
  · exact fun keysyms => hs (keysym :: keysyms)

theorem Idle.forCharacter {s : TextInput h} (hs : s.Idle) (cp : UInt32) :
    s.forCharacter cp = Keysym.forCharacter cp := by
  have hheld : h.heldModifiers s.watcher = [] := hs []
  unfold TextInput.forCharacter shiftHeld otherModifierHeld
  simp [hheld]

theorem Idle.sends {s : TextInput h} (hs : s.Idle) (keysyms : List UInt32) : (keysyms.foldl TextInput.send s).Idle := by
  induction keysyms generalizing s with
  | nil => exact hs
  | cons k ks ih => exact ih (hs.send k)

theorem backspaces_document (s : TextInput h) (n : Nat) (doc : Document) :
    ((List.replicate n Keysym.backspace).foldl send s).document doc = (s.document doc).backspaces n := by
  induction n generalizing s with
  | zero => exact (List.take_length).symm
  | succ n ih =>
    rw [List.replicate_succ, List.foldl_cons, ih, send_document, if_neg (by decide), Document.press, if_pos rfl,
      Document.backspaces_succ]

/-- The keys of a difference. -/
theorem Idle.replace_document {s : TextInput h} (hs : s.Idle) (n : Nat) (cps : List UInt32) (doc : Document) :
    ((List.replicate n TextDelta.Out.backspace ++ cps.map TextDelta.Out.character).foldl TextInput.out s).document doc =
        ((s.document doc).backspaces n).type cps ∧
      ((List.replicate n TextDelta.Out.backspace ++ cps.map TextDelta.Out.character).foldl TextInput.out s).Idle := by
  have hback : (List.replicate n TextDelta.Out.backspace).foldl TextInput.out s =
      (List.replicate n Keysym.backspace).foldl TextInput.send s := by
    clear hs
    induction n generalizing s with
    | zero => rfl
    | succ n ih =>
      rw [List.replicate_succ, List.replicate_succ, List.foldl_cons, List.foldl_cons]
      exact ih
  rw [List.foldl_append, hback, ← backspaces_document]
  have hidle := hs.sends (List.replicate n Keysym.backspace)
  generalize (List.replicate n Keysym.backspace).foldl TextInput.send s = t at hidle
  induction cps generalizing t with
  | nil => exact ⟨rfl, hidle⟩
  | cons cp cps ih =>
    rw [List.map_cons, List.foldl_cons]
    obtain ⟨hdoc, hlast⟩ := ih (t.out (.character cp)) (hidle.send _)
    refine ⟨hdoc.trans ?_, hlast⟩
    rw [out, send_document, hidle.forCharacter]
    rfl

/-! ## Whole runs -/

/-- What an input method has asked for: the document as it left it, and the
region it is composing. -/
structure Draft where
  settled : Document
  composing : CharSequence

namespace Draft

/-- The region at the end of the rest. -/
def document (d : Draft) : Document := d.settled.type (codePoints d.composing)

def step (d : Draft) : Op → Draft
  | .compose text => ⟨d.settled, text.getD []⟩
  | .commit text => ⟨d.settled.type (codePoints (text.getD [])), []⟩
  | .deleteBefore length => ⟨d.document.backspaces length.toNat, []⟩
  | .finish => ⟨d.document, []⟩

end Draft

/-- A revision takes back only what has a key that types it. -/
def TakesBackTyped (s : TextInput h) : Op → Prop
  | .compose text | .commit text =>
    ∀ cp ∈ codePoints (s.delta.drop (TextDelta.common s.delta (text.getD []))), Typed cp
  | .deleteBefore _ | .finish => True

instance (s : TextInput h) : DecidablePred s.TakesBackTyped
  | .compose text | .commit text =>
    List.decidableBAll Typed (codePoints (s.delta.drop (TextDelta.common s.delta (text.getD []))))
  | .deleteBefore _ | .finish => .isTrue trivial

/-- The far end has the draft, and the region is remembered as it is. -/
structure Follows (doc : Document) (d : Draft) (s : TextInput h) : Prop where
  idle : s.Idle
  delta : s.delta = d.composing
  document : s.document doc = d.document

theorem Follows.replace {doc : Document} {d : Draft} {s : TextInput h} (hs : Follows doc d s)
    {text : Option CharSequence} (hok : s.TakesBackTyped (.compose text)) :
    (s.replace text).Idle ∧ (s.replace text).document doc = d.settled.type (codePoints (text.getD [])) := by
  obtain ⟨hcut, hcut'⟩ := TextDelta.between_common s.delta (text.getD [])
  have hsent := TextDelta.codePoints_split hcut
  have hnext := TextDelta.codePoints_split hcut'
  rw [← TextDelta.take_common] at hnext
  obtain ⟨hdoc, hidle⟩ := hs.idle.replace_document
    (codePoints (s.delta.drop (TextDelta.common s.delta (text.getD [])))).length
    (codePoints ((text.getD []).drop (TextDelta.common s.delta (text.getD [])))) doc
  rw [← TextDelta.replace_eq] at hdoc hidle
  refine ⟨hidle, hdoc.trans ?_⟩
  rw [hs.document, Draft.document, ← hs.delta, hsent, Document.backspaces_type _ _ hok, hnext, Document.type_append]

theorem sends_delta (s : TextInput h) (keysyms : List UInt32) : (keysyms.foldl send s).delta = s.delta := by
  induction keysyms generalizing s with
  | nil => rfl
  | cons k ks ih => exact (ih (s.send k)).trans (s.send_delta k)

theorem Follows.step {doc : Document} {d : Draft} {s s' : TextInput h} (hs : Follows doc d s) {op : Op}
    (hok : s.TakesBackTyped op) (hstep : s.step op = some s') : Follows doc (d.step op) s' := by
  cases op with
  | compose text =>
    cases hstep
    obtain ⟨hidle, hdoc⟩ := hs.replace hok
    exact ⟨hidle, rfl, hdoc⟩
  | commit text =>
    cases hstep
    obtain ⟨hidle, hdoc⟩ := hs.replace hok
    exact ⟨hidle, rfl, hdoc⟩
  | deleteBefore length =>
    cases hstep
    unfold deleteSurroundingText
    rw [Int.toNat_zero, List.replicate_zero, List.append_nil]
    have hidle : Idle { s with delta := [] } := hs.idle
    refine ⟨hidle.sends _, sends_delta _ _, ?_⟩
    rw [backspaces_document]
    exact congrArg (Document.backspaces · _) hs.document
  | finish =>
    cases hstep
    exact ⟨hs.idle, rfl, hs.document⟩

/-- A new connection, before anything was typed. -/
def start (w : h.Watcher) : TextInput h := ⟨[], w, []⟩

theorem follows_start {w : h.Watcher} (hw : (start w).Idle) (doc : Document) : Follows doc ⟨doc, []⟩ (start w) :=
  ⟨hw, rfl, rfl⟩

/-- The far end has what the input method has asked for, after every run of
compositions, commits, deletions and ends of the region that takes back only what
was typed: the keys of what was settled and then those of the region. No revision
cuts a pair in two, and it has a backspace for each code point it takes back. A
plain character types itself. -/
theorem typed_as_composed {w : h.Watcher} (hw : (start w).Idle) (doc : Document) {ops : List Op} {s : TextInput h}
    (hm : Meets step TakesBackTyped (start w) ops) (hr : run step (start w) ops = some s) :
    s.document doc = (ops.foldl Draft.step ⟨doc, []⟩).document ∧
    (∀ sent next : CharSequence,
      codePoints sent = codePoints (sent.take (TextDelta.common sent next)) ++
        codePoints (sent.drop (TextDelta.common sent next)) ∧
      codePoints next = codePoints (sent.take (TextDelta.common sent next)) ++
        codePoints (next.drop (TextDelta.common sent next)) ∧
      TextDelta.replace sent next =
        List.replicate (codePoints (sent.drop (TextDelta.common sent next))).length .backspace ++
          (codePoints (next.drop (TextDelta.common sent next))).map .character) ∧
    ∀ (text : CharSequence) (doc : Document), (∀ cp ∈ codePoints text, Plain cp) →
      doc.type (codePoints text) = doc ++ codePoints text := by
  refine ⟨?_, fun sent next => ?_, fun text doc hplain => ?_⟩
  · have hfollows : Follows doc (ops.foldl Draft.step ⟨doc, []⟩) s := by
      refine trace_inv (fun ops s => Follows doc (ops.foldl Draft.step ⟨doc, []⟩) s) (follows_start hw doc) ?_ hm hr
      intro tr s op s' hs hok hstep
      rw [List.foldl_append]
      exact hs.step hok hstep
    exact hfollows.document
  · obtain ⟨hcut, hcut'⟩ := TextDelta.between_common sent next
    refine ⟨TextDelta.codePoints_split hcut, ?_, TextDelta.replace_eq sent next⟩
    rw [TextDelta.take_common]
    exact TextDelta.codePoints_split hcut'
  · have htyped := fun cp hcp => (hplain cp hcp).typed (codePoints_lt hcp)
    rw [Document.type_typed doc fun cp hcp => (htyped cp hcp).1]
    refine congrArg _ ((List.map_congr_left fun cp hcp => ?_).trans (List.map_id _))
    exact (htyped cp hcp).2

/-- A keyboard that holds what it is given to hold, and the case of ASCII. -/
def someHost : Host where
  Watcher := List UInt32
  heldModifiers held := held
  sent held _ := held
  toUpperCase cp := if 0x61 ≤ cp ∧ cp ≤ 0x7a then cp - 0x20 else cp
  toLowerCase cp := if 0x41 ≤ cp ∧ cp ≤ 0x5a then cp + 0x20 else cp

theorem someHost_idle : (start (h := someHost) []).Idle := by
  intro keysyms
  induction keysyms with
  | nil => rfl
  | cons k ks ih => exact ih

def documentAfter (held : List UInt32) (ops : List Op) : Option Document :=
  (run step (start (h := someHost) held) ops).map (document · [])

/-- A face revised to another, of which the first half is the same. -/
theorem typed_as_composed_faces :
    documentAfter [] [.commit (some [0x61]), .compose (some [0xd83d, 0xde00]), .compose (some [0xd83d, 0xde03])] =
      some [0x61, 0x1f603] := by
  have hrun : run step (start (h := someHost) [])
      [.commit (some [0x61]), .compose (some [0xd83d, 0xde00]), .compose (some [0xd83d, 0xde03])] = some _ := rfl
  unfold documentAfter
  rw [hrun]
  exact congrArg some ((typed_as_composed someHost_idle [] (by decide) hrun).1.trans (by decide))

/-! What is asked for to the letter is another thing: there are characters that
have no key, and others that have one that does not type them. -/

/-- The texts committed and the one being composed, as they are. -/
def asComposed (ops : List Op) : Document :=
  let texts := ops.foldl (fun (t : Document × Document) op =>
    match op with
    | .compose text => (t.1, codePoints (text.getD []))
    | .commit text => (t.1 ++ codePoints (text.getD []), [])
    | .deleteBefore length => (Document.backspaces (t.1 ++ t.2) length.toNat, [])
    | .finish => (t.1 ++ t.2, [])) ([], [])
  texts.1 ++ texts.2

/-- A bell types nothing, a carriage return a newline, and U+0008 takes a
character back; under a held Shift a letter is a capital. And a revision takes
back a bell as if it had been typed. -/
theorem not_as_composed :
    (documentAfter [] [.commit (some [0x07])] = some [] ∧ asComposed [.commit (some [0x07])] = [0x07]) ∧
    (documentAfter [] [.commit (some [0x0d])] = some [0x0a] ∧ asComposed [.commit (some [0x0d])] = [0x0d]) ∧
    (documentAfter [] [.commit (some [0x61, 0x08])] = some [] ∧
      asComposed [.commit (some [0x61, 0x08])] = [0x61, 0x08]) ∧
    (documentAfter [Keysym.shiftL] [.commit (some [0x61])] = some [0x41] ∧
      asComposed [.commit (some [0x61])] = [0x61]) ∧
    (documentAfter [] [.commit (some [0x61]), .compose (some [0x07]), .compose none] = some [] ∧
      asComposed [.commit (some [0x61]), .compose (some [0x07]), .compose none] = [0x61]) := by
  decide

end TextInput

end Vento.Control
