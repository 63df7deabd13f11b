import Mathlib.Logic.Function.Basic
import Vento.Control.KeySink
/-!
# The extension keyboard

The keys of `control/input/ExtensionKeyboard.java`, what their modifiers hold at
the far end, and the finger that drives them. A modifier is off, armed for one
key, or locked, and is held down in both of these; keys may share a keysym, and
the far end hears the first press and the last release of it. The caller's keys
are objects that are told apart by identity, so the model names them by
reference, and `key` gives the record of each.

What the layout says of a point is an argument of each touch, and so is
`Config`'s time for a double tap. Scrolling is what it does to the key under the
finger. The listener, the info bar's text and the glide of the row are left out.
-/

namespace Vento.Control

open Vento.Lib

namespace ExtensionKeyboard

structure Key where
  label : String
  icon : Option String
  keysym : UInt32
  modifier : Bool
  repeats : Bool
  group : Int32
  row : Int32
  wide : Bool
  action : Option String
deriving DecidableEq, Repr

inductive Sticky where
  | off
  | oneshot
  | locked
deriving DecidableEq, Repr

/-- A touch target of the info bar. -/
inductive Part where
  | mask
  | dismiss
deriving DecidableEq, Repr

/-- What the scheduler may run. -/
inductive Timer where
  | longPress
  | keyRepeat
deriving DecidableEq, Repr

/-- A list of keys, which an int can count. -/
structure KeyList where
  keys : List Nat
  size : keys.length < 2 ^ 31

/-- The place of a key, the last one if it is there more than once. -/
def KeyList.index (l : KeyList) (k : Nat) : Option Nat :=
  (List.range l.keys.length).reverse.find? fun i => l.keys[i]? = some k

/-- The keys, the state of each, the id that each held keysym went down with, and
the calls of the sink so far. -/
structure KeyRow where
  keyList : KeyList
  state : List Sticky
  heldIds : UInt32 → Option Int32
  sink : List KeyCall

namespace KeyRow

variable (key : Nat → Key)

def adopt (keyList : KeyList) (sink : List KeyCall) : KeyRow :=
  { keyList, state := List.replicate keyList.keys.length .off, heldIds := fun _ => none, sink }

def modifiers (s : KeyRow) : List Nat := s.keyList.keys.filter fun k => (key k).modifier

def slot (s : KeyRow) (i : Nat) : Sticky := s.state.getD i .off

def sticky (s : KeyRow) (k : Nat) : Sticky :=
  match s.keyList.index k with
  | none => .off
  | some i => s.slot i

def keyId (s : KeyRow) (k : Nat) : Int32 :=
  KeySink.idExtensionKeyboard +
    match s.keyList.index k with
    | none => -1
    | some i => Int32.ofNat i

def othersHold (s : KeyRow) (except : Nat) (keysym : UInt32) : Bool :=
  (List.range s.state.length).any fun i =>
    i ≠ except ∧ s.slot i ≠ .off ∧ s.keyList.keys[i]?.any fun k => (key k).keysym = keysym

def set (s : KeyRow) (k : Nat) (next : Sticky) : KeyRow :=
  match s.keyList.index k with
  | none => s
  | some i =>
    if s.slot i = next then s
    else
      let keysym := (key k).keysym
      let t := { s with state := s.state.set i next }
      -- between one-shot and locked it is still held, and there is nothing to send
      if s.slot i ≠ .off ↔ next ≠ .off then t
      else if t.othersHold key i keysym then t
      else if next ≠ .off then
        { t with
          heldIds := Function.update t.heldIds keysym (some (t.keyId k))
          sink := t.sink ++ [.keyDown keysym (t.keyId k)] }
      else
        { t with
          heldIds := Function.update t.heldIds keysym none
          sink := t.sink ++ [.keyUp ((t.heldIds keysym).getD (t.keyId k))] }

def releaseOneShotModifiers (s : KeyRow) : KeyRow :=
  (s.modifiers key).foldl (fun s m => if s.sticky m = .oneshot then s.set key m .off else s) s

def clearModifiers (s : KeyRow) : KeyRow :=
  (s.modifiers key).foldl (fun s m => s.set key m .off) s

/-- What `fire` sends for the key itself, which is nothing for an action. -/
def sent (s : KeyRow) (k : Nat) : List KeyCall :=
  if (key k).action.isSome then [] else [.keyDown (key k).keysym (s.keyId k), .keyUp (s.keyId k)]

def fire (s : KeyRow) (k : Nat) : KeyRow :=
  releaseOneShotModifiers key { s with sink := s.sink ++ s.sent key k }

end KeyRow

/-- What the layout says of a point: whether it is on the keyboard at all, whether
it is in the info bar, the part of the bar at its abscissa, and the place of the
key under it. -/
structure Point where
  inside : Bool
  inInfoBar : Bool
  partAt : Part
  keyAt : Option Nat

/-- What a finger that is lifted has clicked. -/
inductive Click where
  | key (k : Nat)
  | part (part : Part)
deriving DecidableEq, Repr

/-- `NONE`, the id of no pointer. -/
def noPointer : Int32 := Int32.minValue

/-- The ids of the pointers that `TouchRouter` offers to the keyboard. -/
def trackable (id : Int32) : Bool := 0 ≤ id ∧ id < 64

def bit (id : Int32) : UInt64 := if 0 ≤ id ∧ id < 64 then 1 <<< UInt64.ofNat id.toNatClampNeg else 0

end ExtensionKeyboard

open ExtensionKeyboard in
structure ExtensionKeyboard where
  row : KeyRow
  visible : Bool
  activeId : Int32
  activeKey : Option Nat
  activePart : Option Part
  scrolling : Bool
  consumed : Bool
  spare : UInt64
  lastTapKey : Option Nat
  lastTapTime : Int64
  posted : List Timer

namespace ExtensionKeyboard

variable (key : Nat → Key)

def new (keyList : KeyList) : ExtensionKeyboard where
  row := .adopt keyList []
  visible := false
  activeId := noPointer
  activeKey := none
  activePart := none
  scrolling := false
  consumed := false
  spare := 0
  lastTapKey := none
  lastTapTime := 0
  posted := []

def keyAt (s : ExtensionKeyboard) (p : Point) : Option Nat := p.keyAt.bind fun i => s.row.keyList.keys[i]?

def release (s : ExtensionKeyboard) : ExtensionKeyboard where
  row := s.row
  visible := s.visible
  activeId := noPointer
  activeKey := none
  activePart := none
  scrolling := false
  consumed := false
  spare := 0
  lastTapKey := none
  lastTapTime := 0
  posted := []

def setKeys (s : ExtensionKeyboard) (keyList : KeyList) : ExtensionKeyboard :=
  { s.release with row := .adopt keyList (s.row.clearModifiers key).sink }

def setVisible (s : ExtensionKeyboard) (v : Bool) : ExtensionKeyboard :=
  if s.visible = v then s
  else if v then { s with visible := true }
  else { s.release with visible := false, row := s.row.clearModifiers key }

/-- Whether the keyboard takes the pointer, and the keyboard after it. -/
def claimTouch (s : ExtensionKeyboard) (id : Int32) (p : Point) : ExtensionKeyboard × Bool :=
  if !s.visible || !p.inside then (s, false)
  else if s.activeId ≠ noPointer then ({ s with spare := s.spare ||| bit id }, true)
  else
    let t := { s with activeId := id, activeKey := none, activePart := none, scrolling := false, consumed := false }
    if p.inInfoBar then ({ t with activePart := some p.partAt }, true)
    else
      match s.keyAt p with
      | some k => ({ t with activeKey := some k, posted := .longPress :: s.posted }, true)
      | none => (t, true)

/-- `dragged` says that the finger has gone past the slop. -/
def claimMoved (s : ExtensionKeyboard) (id : Int32) (dragged : Bool) : ExtensionKeyboard :=
  if id ≠ s.activeId then s
  else if !s.scrolling && s.activePart.isNone && dragged then
    { s with scrolling := true, activeKey := none, posted := [] }
  else s

def tap (s : ExtensionKeyboard) (k : Nat) (t keyDoubleTapMs : Int64) : ExtensionKeyboard :=
  let second := (s.lastTapKey.any fun last => key k = key last) && t - s.lastTapTime ≤ keyDoubleTapMs
  { s with
    lastTapKey := some k
    lastTapTime := t
    row :=
      if !(key k).modifier then s.row.fire key k
      else if second then s.row.set key k (if s.row.sticky k = .locked then .off else .locked)
      else s.row.set key k (if s.row.sticky k = .off then .oneshot else .off) }

/-- The key, or the part of the info bar, that the finger came down on, if it is
still there as it lifts. -/
def clicked (s : ExtensionKeyboard) (p : Point) : Option Click :=
  if s.scrolling || s.consumed then none
  else if s.activeKey.any fun k => (s.keyAt p).any fun k' => key k = key k' then s.activeKey.map .key
  else if p.inInfoBar && s.activePart = some p.partAt then some (.part p.partAt)
  else none

/-- The keyboard without the finger that drove it. -/
def lifted (s : ExtensionKeyboard) : ExtensionKeyboard :=
  { s with posted := [], activeId := noPointer, activeKey := none, activePart := none, scrolling := false }

def claimEnded (s : ExtensionKeyboard) (id : Int32) (p : Point) (t keyDoubleTapMs : Int64) : ExtensionKeyboard :=
  if s.spare &&& bit id ≠ 0 then { s with spare := s.spare &&& ~~~bit id }
  else if id ≠ s.activeId then s
  else
    match s.clicked key p with
    | some (.key k) => s.lifted.tap key k t keyDoubleTapMs
    | some (.part .dismiss) => s.lifted.setVisible key false
    | some (.part .mask) => s.lifted
    | none => s.lifted

def onLongPress (s : ExtensionKeyboard) : ExtensionKeyboard :=
  match s.activeKey with
  | none => s
  | some k =>
    if (key k).modifier then
      { s with
        consumed := true
        row := s.row.set key k (if s.row.sticky k = .locked then .off else .locked) }
    else if (key k).repeats then { s with posted := .keyRepeat :: s.posted }
    else s

def onRepeat (s : ExtensionKeyboard) : ExtensionKeyboard :=
  match s.activeKey with
  | none => s
  | some k =>
    if (key k).repeats then
      { s with consumed := true, row := s.row.fire key k, posted := .keyRepeat :: s.posted }
    else s

/-- A key of another keyboard. -/
def externalKey (s : ExtensionKeyboard) : ExtensionKeyboard :=
  { s with row := s.row.releaseOneShotModifiers key }

/-- A click somewhere else. -/
def externalClick (s : ExtensionKeyboard) : ExtensionKeyboard :=
  { s with row := s.row.releaseOneShotModifiers key }

inductive Op where
  | claimTouch (id : Int32) (p : Point)
  | claimMoved (id : Int32) (dragged : Bool)
  | claimEnded (id : Int32) (p : Point) (t keyDoubleTapMs : Int64)
  | claimCancelled
  | timer (r : Timer)
  | externalKey
  | externalClick
  | setVisible (v : Bool)
  | setKeys (keyList : KeyList)
  | clearModifiers

/-- Pointers that cannot be tracked pass the keyboard by, and only what was posted
is run. -/
def step (s : ExtensionKeyboard) : Op → Option ExtensionKeyboard
  | .claimTouch id p => some (if trackable id then (s.claimTouch id p).1 else s)
  | .claimMoved id dragged => some (if trackable id then s.claimMoved id dragged else s)
  | .claimEnded id p t keyDoubleTapMs => some (if trackable id then s.claimEnded key id p t keyDoubleTapMs else s)
  | .claimCancelled => some s.release
  | .timer .longPress =>
    if .longPress ∈ s.posted then some (onLongPress key { s with posted := s.posted.erase .longPress }) else none
  | .timer .keyRepeat =>
    if .keyRepeat ∈ s.posted then some (onRepeat key { s with posted := s.posted.erase .keyRepeat }) else none
  | .externalKey => some (s.externalKey key)
  | .externalClick => some (s.externalClick key)
  | .setVisible v => some (s.setVisible key v)
  | .setKeys keyList => some (s.setKeys key keyList)
  | .clearModifiers => some { s with row := s.row.clearModifiers key }

def farEnd (s : ExtensionKeyboard) : FarEnd := .after s.row.sink

/-! ## Places and ids -/

namespace KeyList

theorem index_some {l : KeyList} {k i : Nat} (h : l.index k = some i) : l.keys[i]? = some k := by
  unfold index at h
  have hk := List.find?_some h
  exact of_decide_eq_true hk

theorem index_lt {l : KeyList} {k i : Nat} (h : l.index k = some i) : i < l.keys.length :=
  (List.getElem?_eq_some_iff.1 (index_some h)).1

theorem index_inj {l : KeyList} {k m i : Nat} (hk : l.index k = some i) (hm : l.index m = some i) : k = m :=
  Option.some_inj.1 ((index_some hk).symm.trans (index_some hm))

theorem index_of_mem {l : KeyList} {k : Nat} (h : k ∈ l.keys) : ∃ i, l.index k = some i := by
  obtain ⟨i, hi, hk⟩ := List.mem_iff_getElem.1 h
  apply Option.isSome_iff_exists.1
  unfold index
  rw [List.find?_isSome]
  refine ⟨i, List.mem_reverse.2 (List.mem_range.2 hi), decide_eq_true ?_⟩
  rw [List.getElem?_eq_getElem hi, hk]

end KeyList

namespace KeyRow

variable {key}

def idAt (i : Nat) : Int32 := KeySink.idExtensionKeyboard + Int32.ofNat i

theorem keyId_eq {s : KeyRow} {k i : Nat} (h : s.keyList.index k = some i) : s.keyId k = idAt i := by
  unfold keyId
  rw [h]
  rfl

theorem idAt_inj {l : KeyList} {k m i j : Nat} (hk : l.index k = some i) (hm : l.index m = some j)
    (h : idAt i = idAt j) : k = m := by
  have hij := KeySink.id_inj _ (Nat.lt_trans (KeyList.index_lt hk) l.size) (Nat.lt_trans (KeyList.index_lt hm) l.size) h
  exact KeyList.index_inj hk (hij ▸ hm)

theorem slot_lt {s : KeyRow} {i : Nat} (h : s.slot i ≠ .off) : i < s.state.length := by
  by_contra hnot
  exact h (List.getD_eq_default _ _ (Nat.le_of_not_lt hnot))

theorem slot_put {s : KeyRow} {i : Nat} (h : i < s.state.length) (next : Sticky) (j : Nat) :
    slot { s with state := s.state.set i next } j = if j = i then next else s.slot j :=
  KeySink.getD_set h next .off j

/-! ## What the row holds -/

/-- The key at `i` is a held one, and has the keysym. -/
def HeldAt (key : Nat → Key) (s : KeyRow) (i : Nat) (keysym : UInt32) : Prop :=
  s.slot i ≠ .off ∧ ∃ m, s.keyList.index m = some i ∧ (key m).keysym = keysym

def OthersHold (key : Nat → Key) (s : KeyRow) (except : Nat) (keysym : UInt32) : Prop :=
  ∃ i, i ≠ except ∧ HeldAt key s i keysym

theorem othersHold_iff {s : KeyRow} (h : ∀ i, s.slot i ≠ .off → ∃ m, s.keyList.index m = some i) (except : Nat)
    (keysym : UInt32) : s.othersHold key except keysym = true ↔ OthersHold key s except keysym := by
  unfold othersHold
  rw [List.any_eq_true]
  refine exists_congr fun i => ?_
  rw [List.mem_range, decide_eq_true_eq]
  constructor
  · rintro ⟨-, hne, hslot, hkey⟩
    obtain ⟨m, hm⟩ := h i hslot
    rw [KeyList.index_some hm] at hkey
    exact ⟨hne, hslot, m, hm, of_decide_eq_true hkey⟩
  · rintro ⟨hne, hslot, m, hm, hkeysym⟩
    refine ⟨slot_lt hslot, hne, hslot, ?_⟩
    rw [KeyList.index_some hm]
    exact decide_eq_true hkeysym

theorem held_iff {s : KeyRow} {m i : Nat} (hi : s.keyList.index m = some i) (keysym : UInt32) :
    (∃ j, HeldAt key s j keysym) ↔ (s.slot i ≠ .off ∧ (key m).keysym = keysym) ∨ OthersHold key s i keysym := by
  constructor
  · rintro ⟨j, hslot, m', hj, hkeysym⟩
    by_cases hji : j = i
    · subst hji
      rw [KeyList.index_inj hj hi] at hkeysym
      exact .inl ⟨hslot, hkeysym⟩
    · exact .inr ⟨j, hji, hslot, m', hj, hkeysym⟩
  · rintro (⟨hslot, hkeysym⟩ | ⟨j, -, hheld⟩)
    · exact ⟨i, hslot, m, hi, hkeysym⟩
    · exact ⟨j, hheld⟩

theorem othersHold_put {s : KeyRow} {i : Nat} (h : i < s.state.length) (next : Sticky) (keysym : UInt32) :
    OthersHold key { s with state := s.state.set i next } i keysym ↔ OthersHold key s i keysym := by
  refine exists_congr fun j => and_congr_right fun hj => ?_
  unfold HeldAt
  rw [slot_put h, if_neg hj]

/-- The far end holds the keysyms of the modifiers that are one-shot or locked, each
under the id that `heldIds` has for it. -/
structure Lit (key : Nat → Key) (s : KeyRow) : Prop where
  length : s.state.length = s.keyList.keys.length
  modifier : ∀ i, s.slot i ≠ .off → ∃ m, s.keyList.index m = some i ∧ (key m).modifier = true
  ids : ∀ k id, s.heldIds k = some id ↔ (FarEnd.after s.sink).held id = some k
  held : ∀ k, (∃ id, s.heldIds k = some id) ↔ ∃ i, HeldAt key s i k
  own : ∀ k id, s.heldIds k = some id →
    ∃ m i, s.keyList.index m = some i ∧ (key m).modifier = true ∧ (key m).keysym = k ∧ idAt i = id
  clean : (FarEnd.after s.sink).Clean
  names : FarEnd.NamesPressed s.sink

/-- An id that is held is that of a modifier with the keysym it is held for. -/
theorem Lit.of_held {s : KeyRow} (h : Lit key s) {m i : Nat} (hi : s.keyList.index m = some i) {k : UInt32}
    (hk : (FarEnd.after s.sink).held (idAt i) = some k) : (key m).modifier = true ∧ (key m).keysym = k := by
  obtain ⟨m', i', hi', hm', hkeysym, hid⟩ := h.own k _ ((h.ids k _).2 hk)
  rw [idAt_inj hi hi' hid.symm]
  exact ⟨hm', hkeysym⟩

/-! ### A key changes its state -/

section Put

variable {s : KeyRow} {m i : Nat} {next : Sticky}

theorem Lit.put_modifier (h : Lit key s) (hi : s.keyList.index m = some i) (hm : (key m).modifier = true)
    (next : Sticky) (j : Nat) (hj : slot { s with state := s.state.set i next } j ≠ .off) :
    ∃ m, s.keyList.index m = some j ∧ (key m).modifier = true := by
  rw [slot_put (h.length ▸ KeyList.index_lt hi)] at hj
  by_cases hji : j = i
  · exact ⟨m, hji ▸ hi, hm⟩
  · rw [if_neg hji] at hj
    exact h.modifier j hj

theorem Lit.put_held (h : Lit key s) (hi : s.keyList.index m = some i) (next : Sticky) (k : UInt32) :
    (∃ j, HeldAt key { s with state := s.state.set i next } j k) ↔
      (next ≠ .off ∧ (key m).keysym = k) ∨ OthersHold key s i k := by
  have hlt : i < s.state.length := h.length ▸ KeyList.index_lt hi
  refine (held_iff (s := { s with state := s.state.set i next }) hi k).trans ?_
  rw [othersHold_put hlt, slot_put hlt, if_pos rfl]

/-- Nothing is sent where the far end holds the keysym before and after, or neither. -/
theorem Lit.put (h : Lit key s) (hi : s.keyList.index m = some i) (hm : (key m).modifier = true)
    (hsame : (s.slot i ≠ .off ↔ next ≠ .off) ∨ OthersHold key s i (key m).keysym) :
    Lit key { s with state := s.state.set i next } where
  length := (List.length_set ..).trans h.length
  modifier := h.put_modifier hi hm next
  ids := h.ids
  held k := by
    rw [h.held, h.put_held hi, held_iff hi]
    rcases hsame with hsame | hothers
    · rw [hsame]
    · by_cases hk : (key m).keysym = k
      · subst hk
        exact ⟨fun _ => .inr hothers, fun _ => .inr hothers⟩
      · exact or_congr_left (iff_of_false (fun hnot => hk hnot.2) fun hnot => hk hnot.2)
  own := h.own
  clean := h.clean
  names := h.names

/-- `heldIds` is changed for a keysym that no other key holds. -/
theorem Lit.update_held (h : Lit key s) (hi : s.keyList.index m = some i)
    (hothers : ¬OthersHold key s i (key m).keysym) (v : Option Int32) (k : UInt32) :
    (∃ id, Function.update s.heldIds (key m).keysym v k = some id) ↔
      (v ≠ none ∧ (key m).keysym = k) ∨ OthersHold key s i k := by
  by_cases hk : k = (key m).keysym
  · subst hk
    rw [Function.update_self, ← Option.isSome_iff_exists, Option.isSome_iff_ne_none]
    exact ⟨fun hv => .inl ⟨hv, rfl⟩, fun hor => (hor.resolve_right hothers).1⟩
  · rw [Function.update_of_ne hk, h.held, held_iff hi]
    exact or_congr_left (iff_of_false (fun hon => hk hon.2.symm) fun hon => hk hon.2.symm)

/-- The first press of a keysym. -/
theorem Lit.press (h : Lit key s) (hi : s.keyList.index m = some i) (hm : (key m).modifier = true)
    (hslot : s.slot i = .off) (hnext : next ≠ .off) (hothers : ¬OthersHold key s i (key m).keysym) :
    Lit key
      { s with
        state := s.state.set i next
        heldIds := Function.update s.heldIds (key m).keysym (some (idAt i))
        sink := s.sink ++ [.keyDown (key m).keysym (idAt i)] } := by
  have hfree : ∀ id, s.heldIds (key m).keysym ≠ some id := by
    intro id hid
    rcases (held_iff hi _).1 ((h.held _).1 ⟨id, hid⟩) with hon | hon
    · exact hon.1 hslot
    · exact hothers hon
  refine ⟨(List.length_set ..).trans h.length, h.put_modifier hi hm next, ?_, ?_, ?_, ?_, h.names.keyDown _ _⟩
  · intro k id
    rw [FarEnd.after_append]
    show Function.update s.heldIds (key m).keysym _ k = some id ↔
      (if id = idAt i then some (key m).keysym else (FarEnd.after s.sink).held id) = some k
    by_cases hk : k = (key m).keysym
    · subst hk
      rw [Function.update_self, Option.some_inj]
      by_cases hid : id = idAt i
      · rw [if_pos hid]
        exact iff_of_true hid.symm rfl
      · rw [if_neg hid, ← h.ids]
        exact iff_of_false (Ne.symm hid) (hfree id)
    · rw [Function.update_of_ne hk, h.ids]
      by_cases hid : id = idAt i
      · subst hid
        rw [if_pos rfl, Option.some_inj]
        exact iff_of_false (fun hheld => hk (h.of_held hi hheld).2.symm) (Ne.symm hk)
      · rw [if_neg hid]
  · intro k
    refine (h.update_held hi hothers (some (idAt i)) k).trans (Iff.trans ?_ (h.put_held hi next k).symm)
    exact or_congr_left (and_congr_left fun _ => iff_of_true nofun hnext)
  · intro k id hid
    change Function.update s.heldIds (key m).keysym _ k = some id at hid
    by_cases hk : k = (key m).keysym
    · subst hk
      rw [Function.update_self, Option.some_inj] at hid
      exact ⟨m, i, hi, hm, rfl, hid⟩
    · rw [Function.update_of_ne hk] at hid
      exact h.own k id hid
  · rw [FarEnd.after_append]
    apply h.clean.keyDown
    intro k hk
    exact (h.of_held hi hk).2.symm

/-- The last release of a keysym, under the id of its press. -/
theorem Lit.letGo (h : Lit key s) (hi : s.keyList.index m = some i) (hslot : s.slot i ≠ .off)
    (hothers : ¬OthersHold key s i (key m).keysym) :
    Lit key
      { s with
        state := s.state.set i .off
        heldIds := Function.update s.heldIds (key m).keysym none
        sink := s.sink ++ [.keyUp ((s.heldIds (key m).keysym).getD (idAt i))] } := by
  obtain ⟨m', hm', hmod⟩ := h.modifier i hslot
  have hm : (key m).modifier = true := KeyList.index_inj hm' hi ▸ hmod
  obtain ⟨id₀, hid₀⟩ := (h.held _).2 ((held_iff hi _).2 (.inl ⟨hslot, rfl⟩))
  have hheld := (h.ids _ _).1 hid₀
  rw [hid₀, Option.getD_some]
  refine ⟨(List.length_set ..).trans h.length, h.put_modifier hi hm .off, ?_, ?_, ?_, ?_, h.names.keyUp hheld⟩
  · intro k id
    rw [FarEnd.after_append, List.foldl_cons, List.foldl_nil, FarEnd.keyUp_held]
    show Function.update s.heldIds (key m).keysym none k = some id ↔ _
    by_cases hid : id = id₀
    · subst hid
      rw [if_pos rfl]
      refine iff_of_false (fun hk => ?_) nofun
      by_cases hkk : k = (key m).keysym
      · rw [hkk, Function.update_self] at hk
        cases hk
      · rw [Function.update_of_ne hkk, h.ids, hheld, Option.some_inj] at hk
        exact hkk hk.symm
    · rw [if_neg hid, ← h.ids]
      by_cases hk : k = (key m).keysym
      · subst hk
        rw [Function.update_self, hid₀, Option.some_inj]
        exact iff_of_false nofun (Ne.symm hid)
      · rw [Function.update_of_ne hk]
  · intro k
    refine (h.update_held hi hothers none k).trans (Iff.trans ?_ (h.put_held hi .off k).symm)
    exact or_congr_left (and_congr_left fun _ => iff_of_false (fun hne => hne rfl) fun hne => hne rfl)
  · intro k id hid
    change Function.update s.heldIds (key m).keysym _ k = some id at hid
    by_cases hk : k = (key m).keysym
    · rw [hk, Function.update_self] at hid
      cases hid
    · rw [Function.update_of_ne hk] at hid
      exact h.own k id hid
  · rw [FarEnd.after_append]
    exact h.clean.keyUp id₀

theorem set_keyList (key : Nat → Key) (s : KeyRow) (m : Nat) (next : Sticky) : (s.set key m next).keyList = s.keyList := by
  unfold KeyRow.set
  split
  · rfl
  · split
    · rfl
    · simp only
      split
      · rfl
      · split
        · rfl
        · split <;> rfl

theorem Lit.set_slot (h : Lit key s) (m : Nat) (next : Sticky) (j : Nat) :
    (s.set key m next).slot j = if s.keyList.index m = some j then next else s.slot j := by
  unfold KeyRow.set
  cases hi : s.keyList.index m with
  | none => exact (if_neg nofun).symm
  | some i =>
    have hput := slot_put (h.length ▸ KeyList.index_lt hi) next j
    simp only [Option.some.injEq, @eq_comm _ i j]
    split
    · rename_i heq
      split
      · rename_i hj
        rw [hj, heq]
      · rfl
    · split
      · exact hput
      · split
        · exact hput
        · split
          · exact hput
          · exact hput

theorem Lit.set (h : Lit key s) (hm : (key m).modifier = true) (next : Sticky) : Lit key (s.set key m next) := by
  unfold KeyRow.set
  cases hi : s.keyList.index m with
  | none => exact h
  | some i =>
    simp only
    split
    · exact h
    · split
      · rename_i hsame
        exact h.put hi hm (.inl hsame)
      · rename_i hdiffer
        have hothers := @othersHold_iff key { s with state := s.state.set i next }
          (fun j hj => (h.put_modifier hi hm next j hj).imp fun _ hm => hm.1) i (key m).keysym
        rw [othersHold_put (h.length ▸ KeyList.index_lt hi)] at hothers
        split
        · rename_i hothers'
          exact h.put hi hm (.inr (hothers.1 hothers'))
        · rename_i hothers'
          have hid : keyId { s with state := s.state.set i next } m = idAt i := keyId_eq hi
          rw [hid]
          split
          · rename_i hnext
            refine h.press hi hm ?_ hnext (mt hothers.2 hothers')
            by_contra hslot
            exact hdiffer (iff_of_true hslot hnext)
          · rename_i hnext
            have hslot : s.slot i ≠ .off := fun hslot => hdiffer (iff_of_false (not_not.2 hslot) hnext)
            rw [not_not.1 hnext]
            exact h.letGo hi hslot (mt hothers.2 hothers')

theorem set_sink (key : Nat → Key) (s : KeyRow) (m : Nat) :
    ∃ ups, (s.set key m .off).sink = s.sink ++ ups ∧ ∀ c ∈ ups, ∃ id, c = .keyUp id := by
  have hnone : ∃ ups, s.sink = s.sink ++ ups ∧ ∀ c ∈ ups, ∃ id, c = KeyCall.keyUp id :=
    ⟨[], (List.append_nil _).symm, nofun⟩
  unfold KeyRow.set
  split
  · exact hnone
  · split
    · exact hnone
    · simp only
      split
      · exact hnone
      · split
        · exact hnone
        · split
          · rename_i hoff
            exact absurd rfl hoff
          · exact ⟨_, rfl, fun c hc => ⟨_, List.mem_singleton.1 hc⟩⟩

end Put

/-! ### Modifiers are let go of -/

/-- Let go of the keys `ms` whose state is one that `p` is true of. -/
def sweep (key : Nat → Key) (p : Sticky → Bool) (s : KeyRow) (ms : List Nat) : KeyRow :=
  ms.foldl (fun s m => if p (s.sticky m) then s.set key m .off else s) s

theorem releaseOneShotModifiers_eq (key : Nat → Key) (s : KeyRow) :
    s.releaseOneShotModifiers key = sweep key (· = .oneshot) s (s.modifiers key) := by
  unfold releaseOneShotModifiers sweep
  simp only [decide_eq_true_eq]

theorem clearModifiers_eq (key : Nat → Key) (s : KeyRow) :
    s.clearModifiers key = sweep key (fun _ => true) s (s.modifiers key) := by
  unfold clearModifiers sweep
  simp only [if_true]

/-- `t` is `s` with the keys at the places `P` let go of. -/
structure LetGo (key : Nat → Key) (P : Nat → Prop) (s t : KeyRow) : Prop where
  lit : Lit key t
  keyList : t.keyList = s.keyList
  off : ∀ i, P i → t.slot i = .off
  same : ∀ i, ¬P i → t.slot i = s.slot i
  sink : ∃ ups, t.sink = s.sink ++ ups ∧ ∀ c ∈ ups, ∃ id, c = .keyUp id

theorem Lit.letGo_none {s : KeyRow} (h : Lit key s) {P : Nat → Prop} (hP : ∀ i, ¬P i) : LetGo key P s s where
  lit := h
  keyList := rfl
  off i hi := absurd hi (hP i)
  same _ _ := rfl
  sink := ⟨[], (List.append_nil _).symm, nofun⟩

theorem Lit.letGo_set {s : KeyRow} (h : Lit key s) {m : Nat} (hm : (key m).modifier = true) :
    LetGo key (fun i => s.keyList.index m = some i) s (s.set key m .off) where
  lit := h.set hm .off
  keyList := set_keyList ..
  off i hi := (h.set_slot m .off i).trans (if_pos hi)
  same i hi := (h.set_slot m .off i).trans (if_neg hi)
  sink := set_sink ..

theorem LetGo.trans {s t u : KeyRow} {P Q R : Nat → Prop} (h : LetGo key P s t) (h' : LetGo key Q t u)
    (hR : ∀ i, R i ↔ P i ∨ Q i) : LetGo key R s u where
  lit := h'.lit
  keyList := h'.keyList.trans h.keyList
  off i hi := by
    by_cases hQ : Q i
    · exact h'.off i hQ
    · rw [h'.same i hQ]
      exact h.off i (((hR i).1 hi).resolve_right hQ)
  same i hi := by
    rw [hR, not_or] at hi
    rw [h'.same i hi.2, h.same i hi.1]
  sink := by
    obtain ⟨ups, hsink, hups⟩ := h.sink
    obtain ⟨ups', hsink', hups'⟩ := h'.sink
    refine ⟨ups ++ ups', by rw [hsink', hsink, List.append_assoc], fun c hc => ?_⟩
    exact (List.mem_append.1 hc).elim (hups c) (hups' c)

theorem sticky_eq {s : KeyRow} {m i : Nat} (hi : s.keyList.index m = some i) : s.sticky m = s.slot i := by
  unfold sticky
  rw [hi]

theorem Lit.letGo_sweep {s : KeyRow} (h : Lit key s) (p : Sticky → Bool) {ms : List Nat}
    (hms : ∀ m ∈ ms, (key m).modifier = true) :
    LetGo key (fun i => (∃ m ∈ ms, s.keyList.index m = some i) ∧ p (s.slot i) = true) s (sweep key p s ms) := by
  induction ms generalizing s with
  | nil => exact h.letGo_none fun i hi => absurd hi.1 nofun
  | cons m ms ih =>
    have hrest : ∀ m ∈ ms, (key m).modifier = true := fun m hm => hms m (List.mem_cons_of_mem _ hm)
    show LetGo key _ s (sweep key p (if p (s.sticky m) then s.set key m .off else s) ms)
    by_cases hp : p (s.sticky m) = true
    · rw [if_pos hp]
      have hfirst := h.letGo_set (hms m List.mem_cons_self)
      refine hfirst.trans (ih hfirst.lit hrest) fun i => ?_
      rw [hfirst.keyList]
      by_cases hi : s.keyList.index m = some i
      · rw [← sticky_eq hi]
        exact iff_of_true ⟨⟨m, List.mem_cons_self, hi⟩, hp⟩ (.inl hi)
      · rw [hfirst.same i hi]
        simp only [List.exists_mem_cons_iff, hi, false_or]
    · rw [if_neg hp]
      refine (h.letGo_none (P := fun _ => False) fun _ => not_false).trans (ih h hrest) fun i => ?_
      by_cases hi : s.keyList.index m = some i
      · rw [← sticky_eq hi]
        exact iff_of_false (fun hon => hp hon.2) fun hor => hor.elim False.elim fun hon => hp hon.2
      · simp only [List.exists_mem_cons_iff, hi, false_or]

/-- Only modifiers are held, so that letting go of modifiers is letting go of keys. -/
theorem Lit.sweep_modifiers {s : KeyRow} (h : Lit key s) (p : Sticky → Bool) :
    LetGo key (fun i => p (s.slot i) = true) s (sweep key p s (s.modifiers key)) := by
  have hms : ∀ m ∈ s.modifiers key, (key m).modifier = true := fun m hm => (List.mem_filter.1 hm).2
  have hsweep := h.letGo_sweep p hms
  refine ⟨hsweep.lit, hsweep.keyList, fun i hi => ?_, fun i hi => hsweep.same i fun hon => hi hon.2, hsweep.sink⟩
  by_cases hslot : s.slot i = .off
  · by_cases hon : ∃ m ∈ s.modifiers key, s.keyList.index m = some i
    · exact hsweep.off i ⟨hon, hi⟩
    · rw [hsweep.same i fun hboth => hon hboth.1, hslot]
  · obtain ⟨m, hm, hmod⟩ := h.modifier i hslot
    have hmem : m ∈ s.keyList.keys := List.mem_of_getElem? (KeyList.index_some hm)
    exact hsweep.off i ⟨⟨m, List.mem_filter.2 ⟨hmem, hmod⟩, hm⟩, hi⟩

theorem Lit.releaseOneShotModifiers {s : KeyRow} (h : Lit key s) :
    LetGo key (fun i => s.slot i = .oneshot) s (s.releaseOneShotModifiers key) := by
  rw [releaseOneShotModifiers_eq]
  simpa only [decide_eq_true_eq] using h.sweep_modifiers (· = .oneshot)

theorem Lit.clearModifiers {s : KeyRow} (h : Lit key s) : LetGo key (fun _ => True) s (s.clearModifiers key) := by
  rw [clearModifiers_eq]
  simpa only using h.sweep_modifiers fun _ => true

/-! ### A key that is no modifier -/

theorem Lit.sent {s : KeyRow} (h : Lit key s) {k : Nat} (hmem : k ∈ s.keyList.keys)
    (hk : (key k).modifier = false) : Lit key { s with sink := s.sink ++ s.sent key k } := by
  unfold KeyRow.sent
  split
  · rw [List.append_nil]
    exact h
  · obtain ⟨i, hi⟩ := KeyList.index_of_mem hmem
    rw [keyId_eq hi]
    have hfree : (FarEnd.after s.sink).held (idAt i) = none := by
      refine Option.eq_none_iff_forall_ne_some.2 fun keysym hheld => ?_
      rw [(h.of_held hi hheld).1] at hk
      cases hk
    have hsame : FarEnd.after (s.sink ++ [.keyDown (key k).keysym (idAt i), .keyUp (idAt i)]) = .after s.sink := by
      rw [FarEnd.after_append]
      exact h.clean.press_release hfree _
    have hdown : (FarEnd.after (s.sink ++ [.keyDown (key k).keysym (idAt i)])).held (idAt i) = some (key k).keysym := by
      rw [FarEnd.after_append]
      exact if_pos rfl
    have hnames := (h.names.keyDown (key k).keysym (idAt i)).keyUp hdown
    rw [List.append_assoc] at hnames
    exact ⟨h.length, h.modifier, hsame.symm ▸ h.ids, h.held, h.own, hsame.symm ▸ h.clean, hnames⟩

theorem Lit.fire {s : KeyRow} (h : Lit key s) {k : Nat} (hmem : k ∈ s.keyList.keys) (hk : (key k).modifier = false) :
    LetGo key (fun i => s.slot i = .oneshot) { s with sink := s.sink ++ s.sent key k } (s.fire key k) :=
  (h.sent hmem hk).releaseOneShotModifiers

theorem slot_adopt (keyList : KeyList) (sink : List KeyCall) (i : Nat) : (adopt keyList sink).slot i = .off :=
  KeySink.getD_replicate keyList.keys.length Sticky.off i

theorem lit_adopt (key : Nat → Key) (keyList : KeyList) {s : KeyRow} (h : Lit key s) (hoff : ∀ i, s.slot i = .off) :
    Lit key (adopt keyList s.sink) := by
  have hnone : ∀ k id, s.heldIds k ≠ some id := by
    intro k id hid
    obtain ⟨i, hi, -⟩ := (h.held k).1 ⟨id, hid⟩
    exact hi (hoff i)
  refine ⟨List.length_replicate .., fun i hi => absurd (slot_adopt keyList _ i) hi, ?_, ?_, nofun, h.clean, h.names⟩
  · intro k id
    exact iff_of_false nofun fun hk => hnone k id ((h.ids k id).2 hk)
  · intro k
    constructor
    · rintro ⟨id, hid⟩
      cases hid
    · rintro ⟨i, hi, -⟩
      exact absurd (slot_adopt keyList _ i) hi

theorem lit_new (key : Nat → Key) (keyList : KeyList) : Lit key (adopt keyList []) := by
  have hempty : Lit key (adopt ⟨[], by decide⟩ []) := by
    refine ⟨rfl, fun i hi => absurd rfl hi, fun k id => iff_of_false nofun nofun, fun k => ?_, nofun,
      FarEnd.clean_start, FarEnd.namesPressed_nil⟩
    constructor
    · rintro ⟨id, hid⟩
      cases hid
    · rintro ⟨i, hi, -⟩
      exact absurd rfl hi
  exact lit_adopt key keyList hempty fun _ => rfl

end KeyRow

/-! ## What an operation does to the row -/

/-- What the lift of a finger clicks. -/
def clicks (s : ExtensionKeyboard) : Op → Option Click
  | .claimEnded id p _ _ =>
    if trackable id ∧ s.spare &&& bit id = 0 ∧ id = s.activeId then s.clicked key p else none
  | _ => none

/-- The key of the row that is sent. -/
def fires (s : ExtensionKeyboard) : Op → Option Nat
  | .claimEnded id p t keyDoubleTapMs =>
    match s.clicks key (.claimEnded id p t keyDoubleTapMs) with
    | some (.key k) => if (key k).modifier then none else some k
    | _ => none
  | .timer .keyRepeat => s.activeKey.filter fun k => (key k).repeats
  | _ => none

/-- The calls for the key that is sent. -/
def calls (s : ExtensionKeyboard) (op : Op) : List KeyCall :=
  match s.fires key op with
  | some k => s.row.sent key k
  | none => []

/-- A key, of the row or of another keyboard, or a click somewhere else. -/
def Consumes (s : ExtensionKeyboard) (op : Op) : Prop :=
  (∃ k, s.fires key op = some k) ∨ op = .externalKey ∨ op = .externalClick

/-- A tap or a long press of the modifier itself, or what lets go of them all. -/
def Resets (m : Nat) (s : ExtensionKeyboard) : Op → Prop
  | .claimEnded id p t keyDoubleTapMs =>
    s.clicks key (.claimEnded id p t keyDoubleTapMs) = some (.key m) ∨
      s.clicks key (.claimEnded id p t keyDoubleTapMs) = some (.part .dismiss)
  | .timer .longPress => s.activeKey = some m
  | .setVisible v => v = false
  | .setKeys _ | .clearModifiers => True
  | _ => False

variable {key}

/-- The finger is on a key of the row, and only a key that is no modifier repeats. -/
structure Touch (key : Nat → Key) (s : ExtensionKeyboard) : Prop where
  idle : s.activeId = noPointer → s.activeKey = none ∧ s.posted = []
  active : ∀ k, s.activeKey = some k → k ∈ s.row.keyList.keys
  repeats : .keyRepeat ∈ s.posted → ∃ k, s.activeKey = some k ∧ (key k).modifier = false

/-- Nothing is touched or held while the keyboard is hidden. -/
structure Sound (key : Nat → Key) (s : ExtensionKeyboard) : Prop where
  lit : KeyRow.Lit key s.row
  touch : Touch key s
  hidden : s.visible = false → s.activeId = noPointer ∧ ∀ i, s.row.slot i = .off

/-- The ways in which a row changes. -/
inductive RowStep (key : Nat → Key) (s : ExtensionKeyboard) (op : Op) : KeyRow → Prop
  | idle (h : ¬s.Consumes key op) : RowStep key s op s.row
  | fire {k : Nat} (h : s.fires key op = some k) (hmem : k ∈ s.row.keyList.keys) (hk : (key k).modifier = false) :
    RowStep key s op (s.row.fire key k)
  | external (h : op = .externalKey ∨ op = .externalClick) : RowStep key s op (s.row.releaseOneShotModifiers key)
  | set {m : Nat} (next : Sticky) (h : ¬s.Consumes key op) (hreset : Resets key m s op)
    (hm : (key m).modifier = true) : RowStep key s op (s.row.set key m next)
  | clear (h : ¬s.Consumes key op) (hreset : ∀ m, Resets key m s op) : RowStep key s op (s.row.clearModifiers key)
  | adopt {keyList : KeyList} (h : op = .setKeys keyList) :
    RowStep key s op (.adopt keyList (s.row.clearModifiers key).sink)

theorem not_consumes {s : ExtensionKeyboard} {op : Op} (hfires : s.fires key op = none) (hkey : op ≠ .externalKey)
    (hclick : op ≠ .externalClick) : ¬s.Consumes key op := by
  rintro (⟨k, hk⟩ | hop | hop)
  · rw [hfires] at hk
    cases hk
  · exact hkey hop
  · exact hclick hop

theorem clicked_key {s : ExtensionKeyboard} {p : Point} {k : Nat} (h : s.clicked key p = some (.key k)) :
    s.activeKey = some k := by
  unfold clicked at h
  split at h
  · cases h
  · split at h
    · obtain ⟨k', hk, heq⟩ := Option.map_eq_some_iff.1 h
      cases heq
      exact hk
    · split at h <;> cases h

theorem tap_row (key : Nat → Key) (s : ExtensionKeyboard) (k : Nat) (t keyDoubleTapMs : Int64) :
    ((key k).modifier = false ∧ (s.tap key k t keyDoubleTapMs).row = s.row.fire key k) ∨
      ((key k).modifier = true ∧ ∃ next, (s.tap key k t keyDoubleTapMs).row = s.row.set key k next) := by
  unfold tap
  simp only
  cases hk : (key k).modifier
  · exact .inl ⟨rfl, rfl⟩
  · refine .inr ⟨rfl, ?_⟩
    simp only [Bool.not_true, Bool.false_eq_true, if_false]
    split <;> exact ⟨_, rfl⟩

theorem setVisible_false_row (key : Nat → Key) (s : ExtensionKeyboard) :
    (s.setVisible key false).row = s.row ∨ (s.setVisible key false).row = s.row.clearModifiers key := by
  unfold setVisible
  split
  · exact .inl rfl
  · exact .inr rfl

theorem claimTouch_row (s : ExtensionKeyboard) (id : Int32) (p : Point) : (s.claimTouch id p).1.row = s.row := by
  unfold claimTouch
  split
  · rfl
  · split
    · rfl
    · simp only
      split
      · rfl
      · split <;> rfl

theorem claimMoved_row (s : ExtensionKeyboard) (id : Int32) (dragged : Bool) :
    (s.claimMoved id dragged).row = s.row := by
  unfold claimMoved
  split
  · rfl
  · split <;> rfl

theorem fires_claimEnded (s : ExtensionKeyboard) (id : Int32) (p : Point) (t keyDoubleTapMs : Int64) :
    s.fires key (.claimEnded id p t keyDoubleTapMs) =
      match s.clicks key (.claimEnded id p t keyDoubleTapMs) with
      | some (.key k) => if (key k).modifier then none else some k
      | _ => none := rfl

theorem Sound.claimEnded_row {s : ExtensionKeyboard} (h : s.Sound key) (id : Int32) (p : Point)
    (t keyDoubleTapMs : Int64) :
    RowStep key s (.claimEnded id p t keyDoubleTapMs)
      (if trackable id then s.claimEnded key id p t keyDoubleTapMs else s).row := by
  have hidle : ∀ {c}, s.clicks key (.claimEnded id p t keyDoubleTapMs) = c → (∀ k, c ≠ some (.key k)) →
      ¬s.Consumes key (.claimEnded id p t keyDoubleTapMs) := by
    intro c hc hkey
    refine not_consumes ?_ nofun nofun
    rw [fires_claimEnded, hc]
    split
    · rename_i k
      exact absurd rfl (hkey k)
    · rfl
  by_cases hon : trackable id ∧ s.spare &&& bit id = 0 ∧ id = s.activeId
  · have hclicks : s.clicks key (.claimEnded id p t keyDoubleTapMs) = s.clicked key p := if_pos hon
    obtain ⟨htrack, hspare, hid⟩ := hon
    unfold claimEnded
    rw [if_pos htrack, if_neg (not_not.2 hspare), if_neg (not_not.2 hid)]
    cases hc : s.clicked key p with
    | none => exact .idle (hidle (hclicks.trans hc) nofun)
    | some c =>
      rw [hc] at hclicks
      cases c with
      | key k =>
        have hmem := h.touch.active k (clicked_key hc)
        have hfires : s.fires key (.claimEnded id p t keyDoubleTapMs) = if (key k).modifier then none else some k := by
          rw [fires_claimEnded, hclicks]
        refine (tap_row key s.lifted k t keyDoubleTapMs).elim (fun htap => ?_) fun htap => ?_
        · rw [htap.1] at hfires
          exact htap.2.symm ▸ .fire hfires hmem htap.1
        · rw [htap.1] at hfires
          obtain ⟨next, hrow⟩ := htap.2
          exact hrow.symm ▸ .set next (not_consumes hfires nofun nofun) (.inl hclicks) htap.1
      | part part =>
        have hnot := hidle hclicks nofun
        cases part with
        | mask => exact .idle hnot
        | dismiss =>
          refine (setVisible_false_row key s.lifted).elim (fun hrow => ?_) fun hrow => ?_
          · exact hrow.symm ▸ .idle hnot
          · exact hrow.symm ▸ .clear hnot fun _ => .inr hclicks
  · have hrow : (if trackable id then s.claimEnded key id p t keyDoubleTapMs else s).row = s.row := by
      unfold claimEnded
      split
      · rename_i htrack
        split
        · rfl
        · rename_i hspare
          rw [if_pos fun hid => hon ⟨htrack, not_not.1 hspare, hid⟩]
      · rfl
    rw [hrow]
    exact .idle (hidle (if_neg hon) nofun)

/-- What an operation does to the row. -/
theorem Sound.step_row {s s' : ExtensionKeyboard} {op : Op} (h : s.Sound key) (hs : s.step key op = some s') :
    RowStep key s op s'.row := by
  cases op with
  | claimTouch id p =>
    cases hs
    have hrow : (if trackable id then (s.claimTouch id p).1 else s).row = s.row := by
      split
      · exact claimTouch_row s id p
      · rfl
    exact hrow.symm ▸ .idle (not_consumes rfl nofun nofun)
  | claimMoved id dragged =>
    cases hs
    have hrow : (if trackable id then s.claimMoved id dragged else s).row = s.row := by
      split
      · exact claimMoved_row s id dragged
      · rfl
    exact hrow.symm ▸ .idle (not_consumes rfl nofun nofun)
  | claimEnded id p t keyDoubleTapMs =>
    cases hs
    exact h.claimEnded_row id p t keyDoubleTapMs
  | claimCancelled =>
    cases hs
    exact .idle (not_consumes rfl nofun nofun)
  | timer r =>
    cases r with
    | longPress =>
      rw [step] at hs
      split at hs
      · cases hs
        unfold onLongPress
        simp only
        cases hk : s.activeKey with
        | none => exact .idle (not_consumes rfl nofun nofun)
        | some k =>
          simp only
          split
          · rename_i hm
            exact .set _ (not_consumes rfl nofun nofun) hk hm
          · split <;> exact .idle (not_consumes rfl nofun nofun)
      · cases hs
    | keyRepeat =>
      rw [step] at hs
      split at hs
      · rename_i hposted
        cases hs
        obtain ⟨k, hk, hmod⟩ := h.touch.repeats hposted
        have hfires : s.fires key (.timer .keyRepeat) = if (key k).repeats then some k else none := by
          unfold fires
          rw [hk, Option.filter_some]
        unfold onRepeat
        simp only [hk]
        split
        · rename_i hrepeats
          rw [if_pos hrepeats] at hfires
          exact .fire hfires (h.touch.active k hk) hmod
        · rename_i hrepeats
          rw [if_neg hrepeats] at hfires
          exact .idle (not_consumes hfires nofun nofun)
      · cases hs
  | externalKey =>
    cases hs
    exact .external (.inl rfl)
  | externalClick =>
    cases hs
    exact .external (.inr rfl)
  | setVisible v =>
    cases hs
    cases v with
    | false =>
      have hnot : ¬s.Consumes key (.setVisible false) := not_consumes rfl nofun nofun
      refine (setVisible_false_row key s).elim (fun hrow => ?_) fun hrow => ?_
      · exact hrow.symm ▸ .idle hnot
      · exact hrow.symm ▸ .clear hnot fun _ => rfl
    | true =>
      have hrow : (s.setVisible key true).row = s.row := by
        unfold setVisible
        split <;> rfl
      exact hrow.symm ▸ .idle (not_consumes rfl nofun nofun)
  | setKeys keyList =>
    cases hs
    exact .adopt rfl
  | clearModifiers =>
    cases hs
    exact .clear (not_consumes rfl nofun nofun) fun _ => trivial

/-! ## Every operation leaves the keyboard sound -/

theorem touch_idle {s : ExtensionKeyboard} (hkey : s.activeKey = none) (hposted : s.posted = []) : Touch key s where
  idle _ := ⟨hkey, hposted⟩
  active k hk := by
    rw [hkey] at hk
    cases hk
  repeats hr := by
    rw [hposted] at hr
    cases hr

theorem Sound.withRow {s : ExtensionKeyboard} (h : s.Sound key) {row : KeyRow} (hlit : KeyRow.Lit key row)
    (hlist : row.keyList = s.row.keyList) (hoff : s.visible = false → ∀ i, row.slot i = .off) :
    Sound key { s with row := row } where
  lit := hlit
  touch := ⟨h.touch.idle, fun k hk => hlist ▸ h.touch.active k hk, h.touch.repeats⟩
  hidden hv := ⟨(h.hidden hv).1, hoff hv⟩

theorem Sound.letGo {s : ExtensionKeyboard} (h : s.Sound key) {P : Nat → Prop} {row : KeyRow}
    (hgo : KeyRow.LetGo key P s.row row) : Sound key { s with row := row } := by
  refine h.withRow hgo.lit hgo.keyList fun hv i => ?_
  by_cases hi : P i
  · exact hgo.off i hi
  · rw [hgo.same i hi]
    exact (h.hidden hv).2 i

theorem Sound.lifted {s : ExtensionKeyboard} (h : s.Sound key) : s.lifted.Sound key where
  lit := h.lit
  touch := touch_idle rfl rfl
  hidden hv := ⟨rfl, (h.hidden hv).2⟩

theorem Sound.release {s : ExtensionKeyboard} (h : s.Sound key) : s.release.Sound key where
  lit := h.lit
  touch := touch_idle rfl rfl
  hidden hv := ⟨rfl, (h.hidden hv).2⟩

theorem Sound.visible_of_active {s : ExtensionKeyboard} (h : s.Sound key) (hid : s.activeId ≠ noPointer) :
    s.visible = true := by
  by_contra hv
  exact hid (h.hidden (eq_false_of_ne_true hv)).1

theorem ne_noPointer {id : Int32} (h : trackable id = true) : id ≠ noPointer := by
  rintro rfl
  exact absurd h (by decide)

theorem Sound.claimTouch {s : ExtensionKeyboard} (h : s.Sound key) {id : Int32} (hid : trackable id = true)
    (p : Point) : (s.claimTouch id p).1.Sound key := by
  unfold ExtensionKeyboard.claimTouch
  split
  · exact h
  · rename_i hvisible
    have hv : s.visible = true := by
      by_contra hnot
      rw [eq_false_of_ne_true hnot] at hvisible
      exact hvisible rfl
    split
    · exact ⟨h.lit, ⟨h.touch.idle, h.touch.active, h.touch.repeats⟩, h.hidden⟩
    · rename_i hidle
      obtain ⟨-, hposted⟩ := h.touch.idle (not_not.1 hidle)
      simp only
      split
      · exact ⟨h.lit, touch_idle rfl hposted, fun hnot => absurd (hv.symm.trans hnot) nofun⟩
      · split
        · rename_i k hk
          refine ⟨h.lit, ⟨fun hnone => absurd hnone (ne_noPointer hid), fun k' hk' => ?_, fun hr => ?_⟩,
            fun hnot => absurd (hv.symm.trans hnot) nofun⟩
          · cases hk'
            obtain ⟨i, -, hi⟩ := Option.bind_eq_some_iff.1 hk
            exact List.mem_of_getElem? hi
          · change Timer.keyRepeat ∈ .longPress :: s.posted at hr
            rw [hposted] at hr
            cases List.mem_singleton.1 hr
        · exact ⟨h.lit, touch_idle rfl hposted, fun hnot => absurd (hv.symm.trans hnot) nofun⟩

theorem Sound.claimMoved {s : ExtensionKeyboard} (h : s.Sound key) (id : Int32) (dragged : Bool) :
    (s.claimMoved id dragged).Sound key := by
  unfold ExtensionKeyboard.claimMoved
  split
  · exact h
  · split
    · exact ⟨h.lit, touch_idle rfl rfl, h.hidden⟩
    · exact h

theorem Sound.setVisible {s : ExtensionKeyboard} (h : s.Sound key) (v : Bool) : (s.setVisible key v).Sound key := by
  unfold ExtensionKeyboard.setVisible
  split
  · exact h
  · split
    · exact ⟨h.lit, ⟨h.touch.idle, h.touch.active, h.touch.repeats⟩, nofun⟩
    · have hclear := h.lit.clearModifiers
      exact ⟨hclear.lit, touch_idle rfl rfl, fun _ => ⟨rfl, fun i => hclear.off i trivial⟩⟩

theorem Sound.tap {s : ExtensionKeyboard} (h : s.Sound key) (hv : s.visible = true) {k : Nat}
    (hmem : k ∈ s.row.keyList.keys) (t keyDoubleTapMs : Int64) : (s.tap key k t keyDoubleTapMs).Sound key := by
  have hnot : s.visible = false → ∀ i, (s.tap key k t keyDoubleTapMs).row.slot i = .off :=
    fun hnot => absurd (hv.symm.trans hnot) nofun
  have hrow : Sound key { s with row := (s.tap key k t keyDoubleTapMs).row } := by
    rcases tap_row key s k t keyDoubleTapMs with ⟨hk, hrow⟩ | ⟨hk, next, hrow⟩
    · rw [hrow] at hnot ⊢
      have hfire := h.lit.fire hmem hk
      exact h.withRow hfire.lit hfire.keyList hnot
    · rw [hrow] at hnot ⊢
      exact h.withRow (h.lit.set hk next) (KeyRow.set_keyList ..) hnot
  exact ⟨hrow.lit, ⟨hrow.touch.idle, hrow.touch.active, hrow.touch.repeats⟩, hrow.hidden⟩

theorem Sound.claimEnded {s : ExtensionKeyboard} (h : s.Sound key) {id : Int32} (hid : trackable id = true)
    (p : Point) (t keyDoubleTapMs : Int64) : (s.claimEnded key id p t keyDoubleTapMs).Sound key := by
  unfold ExtensionKeyboard.claimEnded
  split
  · exact ⟨h.lit, ⟨h.touch.idle, h.touch.active, h.touch.repeats⟩, h.hidden⟩
  · split
    · exact h
    · rename_i hactive
      have hv := h.visible_of_active (not_not.1 hactive ▸ ne_noPointer hid)
      split
      · rename_i k hk
        exact h.lifted.tap hv (h.touch.active k (clicked_key hk)) t keyDoubleTapMs
      · exact h.lifted.setVisible false
      · exact h.lifted
      · exact h.lifted

theorem Sound.visible_of_posted {s : ExtensionKeyboard} (h : s.Sound key) {r : Timer} (hr : r ∈ s.posted) :
    s.visible = true := by
  apply h.visible_of_active
  intro hidle
  rw [(h.touch.idle hidle).2] at hr
  cases hr

theorem Sound.ran {s : ExtensionKeyboard} (h : s.Sound key) (r : Timer) :
    Sound key { s with posted := s.posted.erase r } where
  lit := h.lit
  touch :=
    { idle := fun hid => by
        obtain ⟨hkey, hposted⟩ := h.touch.idle hid
        refine ⟨hkey, ?_⟩
        show s.posted.erase r = []
        rw [hposted]
        rfl
      active := h.touch.active
      repeats := fun hr => h.touch.repeats (List.mem_of_mem_erase hr) }
  hidden := h.hidden

theorem Sound.onLongPress {s : ExtensionKeyboard} (h : s.Sound key) (hv : s.visible = true) :
    (onLongPress key s).Sound key := by
  unfold ExtensionKeyboard.onLongPress
  split
  · exact h
  · rename_i k hk
    split
    · rename_i hm
      refine ⟨h.lit.set hm _, ⟨h.touch.idle, fun k' hk' => ?_, h.touch.repeats⟩,
        fun hnot => absurd (hv.symm.trans hnot) nofun⟩
      exact (KeyRow.set_keyList ..).symm ▸ h.touch.active k' hk'
    · rename_i hm
      split
      · refine ⟨h.lit, ⟨fun hid => ?_, h.touch.active, fun _ => ⟨k, hk, eq_false_of_ne_true hm⟩⟩, h.hidden⟩
        rw [(h.touch.idle hid).1] at hk
        cases hk
      · exact h

theorem Sound.onRepeat {s : ExtensionKeyboard} (h : s.Sound key) (hv : s.visible = true) {k : Nat}
    (hk : s.activeKey = some k) (hmod : (key k).modifier = false) : (onRepeat key s).Sound key := by
  unfold ExtensionKeyboard.onRepeat
  split
  · exact h
  · rename_i k' hk'
    cases hk'.symm.trans hk
    split
    · have hfire := h.lit.fire (h.touch.active k hk) hmod
      refine ⟨hfire.lit, ⟨fun hid => ?_, fun k' hk' => ?_, fun _ => ⟨k, hk, hmod⟩⟩,
        fun hnot => absurd (hv.symm.trans hnot) nofun⟩
      · rw [(h.touch.idle hid).1] at hk
        cases hk
      · exact hfire.keyList ▸ h.touch.active k' hk'
    · exact h

theorem Sound.setKeys {s : ExtensionKeyboard} (h : s.Sound key) (keyList : KeyList) :
    (s.setKeys key keyList).Sound key where
  lit := KeyRow.lit_adopt key keyList h.lit.clearModifiers.lit fun i => h.lit.clearModifiers.off i trivial
  touch := touch_idle rfl rfl
  hidden _ := ⟨rfl, KeyRow.slot_adopt keyList _⟩

theorem Sound.step {s s' : ExtensionKeyboard} {op : Op} (h : s.Sound key) (hs : s.step key op = some s') :
    s'.Sound key := by
  cases op with
  | claimTouch id p =>
    cases hs
    by_cases hid : trackable id = true
    · rw [if_pos hid]
      exact h.claimTouch hid p
    · rw [if_neg hid]
      exact h
  | claimMoved id dragged =>
    cases hs
    split
    · exact h.claimMoved id dragged
    · exact h
  | claimEnded id p t keyDoubleTapMs =>
    cases hs
    by_cases hid : trackable id = true
    · rw [if_pos hid]
      exact h.claimEnded hid p t keyDoubleTapMs
    · rw [if_neg hid]
      exact h
  | claimCancelled =>
    cases hs
    exact h.release
  | timer r =>
    cases r with
    | longPress =>
      rw [ExtensionKeyboard.step] at hs
      split at hs
      · rename_i hr
        cases hs
        exact (h.ran .longPress).onLongPress (h.visible_of_posted hr)
      · cases hs
    | keyRepeat =>
      rw [ExtensionKeyboard.step] at hs
      split at hs
      · rename_i hr
        cases hs
        obtain ⟨k, hk, hmod⟩ := h.touch.repeats hr
        exact (h.ran .keyRepeat).onRepeat (h.visible_of_posted hr) hk hmod
      · cases hs
  | externalKey =>
    cases hs
    exact h.letGo h.lit.releaseOneShotModifiers
  | externalClick =>
    cases hs
    exact h.letGo h.lit.releaseOneShotModifiers
  | setVisible v =>
    cases hs
    exact h.setVisible v
  | setKeys keyList =>
    cases hs
    exact h.setKeys keyList
  | clearModifiers =>
    cases hs
    exact h.letGo h.lit.clearModifiers

theorem new_sound (key : Nat → Key) (keyList : KeyList) : Sound key (new keyList) where
  lit := KeyRow.lit_new key keyList
  touch := touch_idle rfl rfl
  hidden _ := ⟨rfl, KeyRow.slot_adopt keyList _⟩

/-! ## The modifiers over runs -/

theorem KeyRow.LetGo.sticky {s t : KeyRow} (h : LetGo key (fun i => s.slot i = .oneshot) s t) (m : Nat) :
    t.sticky m = if s.sticky m = .oneshot then .off else s.sticky m := by
  unfold KeyRow.sticky
  rw [h.keyList]
  cases s.keyList.index m with
  | none => rfl
  | some i =>
    by_cases hi : s.slot i = .oneshot
    · exact (h.off i hi).trans (if_pos hi).symm
    · exact (h.same i hi).trans (if_neg hi).symm

theorem KeyRow.Lit.set_sticky {s : KeyRow} (h : Lit key s) {m k : Nat} (hne : m ≠ k) (next : Sticky) :
    (s.set key k next).sticky m = s.sticky m := by
  unfold KeyRow.sticky
  rw [set_keyList]
  cases hi : s.keyList.index m with
  | none => rfl
  | some i => exact (h.set_slot k next i).trans (if_neg fun hk => hne (KeyList.index_inj hi hk))

/-- A key or a click finds the modifiers held, and then lets go of those that are
armed for it. -/
theorem Sound.consumes {s s' : ExtensionKeyboard} {op : Op} (h : s.Sound key) (hc : s.Consumes key op)
    (hs : s.step key op = some s') :
    (∀ m, s'.row.sticky m = if s.row.sticky m = .oneshot then .off else s.row.sticky m) ∧
      ∃ ups, s'.row.sink = s.row.sink ++ s.calls key op ++ ups ∧ ∀ c ∈ ups, ∃ id, c = .keyUp id := by
  have hrow := h.step_row hs
  generalize s'.row = row at hrow ⊢
  unfold calls
  cases hrow with
  | idle hnot => exact absurd hc hnot
  | @fire k hfires hmem hk =>
    have hgo := h.lit.fire hmem hk
    rw [hfires]
    exact ⟨KeyRow.LetGo.sticky (s := { s.row with sink := s.row.sink ++ s.row.sent key k }) hgo, hgo.sink⟩
  | external hop =>
    have hgo := h.lit.releaseOneShotModifiers
    have hnone : s.fires key op = none := by
      rcases hop with rfl | rfl <;> rfl
    rw [hnone]
    simp only [List.append_nil]
    exact ⟨hgo.sticky, hgo.sink⟩
  | set next hnot hreset hm => exact absurd hc hnot
  | clear hnot hreset => exact absurd hc hnot
  | adopt hop =>
    subst hop
    exact absurd hc (not_consumes rfl nofun nofun)

/-- What is neither a key or a click nor its own tap leaves a modifier as it is. -/
theorem Sound.keeps {s s' : ExtensionKeyboard} {op : Op} (h : s.Sound key) {m : Nat} (hc : ¬s.Consumes key op)
    (hm : ¬Resets key m s op) (hs : s.step key op = some s') : s'.row.sticky m = s.row.sticky m := by
  have hrow := h.step_row hs
  generalize s'.row = row at hrow ⊢
  cases hrow with
  | idle hnot => rfl
  | fire hfires hmem hk => exact absurd (.inl ⟨_, hfires⟩) hc
  | external hop => exact absurd (.inr hop) hc
  | set next hnot hreset hmod =>
    apply h.lit.set_sticky
    rintro rfl
    exact hm hreset
  | clear hnot hreset => exact absurd (hreset m) hm
  | adopt hop =>
    subst hop
    exact absurd trivial hm

theorem Sound.holds_iff {s : ExtensionKeyboard} (h : s.Sound key) (k : UInt32) :
    s.farEnd.Holds k ↔ ∃ m ∈ s.row.modifiers key, (key m).keysym = k ∧ s.row.sticky m ≠ .off := by
  constructor
  · rintro ⟨id, hid⟩
    obtain ⟨i, hslot, m, hi, hk⟩ := (h.lit.held k).1 ⟨id, (h.lit.ids k id).2 ((h.lit.clean id k).1 hid)⟩
    obtain ⟨m', hi', hmod⟩ := h.lit.modifier i hslot
    rw [KeyList.index_inj hi' hi] at hmod
    refine ⟨m, List.mem_filter.2 ⟨List.mem_of_getElem? (KeyList.index_some hi), hmod⟩, hk, ?_⟩
    rwa [KeyRow.sticky_eq hi]
  · rintro ⟨m, hm, hk, hon⟩
    obtain ⟨i, hi⟩ := KeyList.index_of_mem (List.mem_filter.1 hm).1
    rw [KeyRow.sticky_eq hi] at hon
    obtain ⟨id, hid⟩ := (h.lit.held k).2 ⟨i, hon, m, hi, hk⟩
    exact ⟨id, (h.lit.clean id k).2 ((h.lit.ids k id).1 hid)⟩

theorem Sound.holds_nothing {s : ExtensionKeyboard} (h : s.Sound key) (hoff : ∀ i, s.row.slot i = .off) (k : UInt32) :
    ¬s.farEnd.Holds k := by
  rintro ⟨id, hid⟩
  obtain ⟨i, hslot, -⟩ := (h.lit.held k).1 ⟨id, (h.lit.ids k id).2 ((h.lit.clean id k).1 hid)⟩
  exact hslot (hoff i)

/-- Whatever is touched, sent, clicked, hidden, cancelled or put in place of the
keys, the far end holds the keysyms of the modifiers that are one-shot or locked
and no others, and lets go of each under the id it went down with. A modifier
stays as it is until it is tapped itself, all are let go of, or a key or a click
comes; that one goes out with the modifiers held, after which the one-shot ones
are let go of. A hidden keyboard, or one with new keys, holds nothing. -/
theorem modifiers_held {keyList : KeyList} {ops : List Op} {s : ExtensionKeyboard}
    (hr : run (step key) (new keyList) ops = some s) :
    (∀ k, s.farEnd.Holds k ↔ ∃ m ∈ s.row.modifiers key, (key m).keysym = k ∧ s.row.sticky m ≠ .off) ∧
    FarEnd.NamesPressed s.row.sink ∧
    (∀ op s', s.Consumes key op → s.step key op = some s' →
      (∀ m, s'.row.sticky m = if s.row.sticky m = .oneshot then .off else s.row.sticky m) ∧
      ∃ ups, s'.row.sink = s.row.sink ++ s.calls key op ++ ups ∧ ∀ c ∈ ups, ∃ id, c = .keyUp id) ∧
    (∀ m ops' s', Meets (step key) (fun s op => ¬s.Consumes key op ∧ ¬Resets key m s op) s ops' →
      run (step key) s ops' = some s' → s'.row.sticky m = s.row.sticky m) ∧
    (∀ m ops' s', s.row.sticky m = .locked → Meets (step key) (fun s op => ¬Resets key m s op) s ops' →
      run (step key) s ops' = some s' → s'.row.sticky m = .locked) ∧
    (s.visible = false → ∀ k, ¬s.farEnd.Holds k) ∧
    ∀ keyList' s', s.step key (.setKeys keyList') = some s' → ∀ k, ¬s'.farEnd.Holds k := by
  have h : s.Sound key :=
    trace_inv_all (fun _ s => s.Sound key) (new_sound key keyList) (fun _ _ _ _ hi hs => hi.step hs) hr
  refine ⟨h.holds_iff, h.lit.names, fun op s' hc hs => h.consumes hc hs, ?_, ?_,
    fun hv => h.holds_nothing (h.hidden hv).2, fun keyList' s' hs => ?_⟩
  · intro m ops' s' hm hr'
    refine (trace_inv (fun _ t => t.Sound key ∧ t.row.sticky m = s.row.sticky m) ⟨h, rfl⟩ ?_ hm hr').2
    intro _ t op t' ht hok hs
    exact ⟨ht.1.step hs, (ht.1.keeps hok.1 hok.2 hs).trans ht.2⟩
  · intro m ops' s' hlocked hm hr'
    refine (trace_inv (fun _ t => t.Sound key ∧ t.row.sticky m = .locked) ⟨h, hlocked⟩ ?_ hm hr').2
    intro _ t op t' ht hok hs
    refine ⟨ht.1.step hs, ?_⟩
    by_cases hc : t.Consumes key op
    · rw [(ht.1.consumes hc hs).1 m, ht.2]
      rfl
    · rw [ht.1.keeps hc hok hs, ht.2]
  · apply (h.step hs).holds_nothing
    cases hs
    exact KeyRow.slot_adopt keyList' _

/-- Ctrl and Esc. -/
def ctrlEsc (k : Nat) : Key :=
  if k = 0 then
    { label := "Ctrl", icon := none, keysym := 0xffe3, modifier := true, repeats := false, group := 0, row := 0,
      wide := false, action := none }
  else
    { label := "Esc", icon := none, keysym := Keysym.escape, modifier := false, repeats := false, group := 1,
      row := 0, wide := false, action := none }

/-- Ctrl is armed by a tap. -/
theorem modifiers_held_ctrl :
    let point : Point := ⟨true, false, .mask, some 0⟩
    ∃ s, run (step ctrlEsc) (new ⟨[0, 1], by decide⟩)
        [.setVisible true, .claimTouch 0 point, .claimEnded 0 point 1000 300] = some s ∧
      ∀ k, s.farEnd.Holds k ↔ ∃ m ∈ s.row.modifiers ctrlEsc, (ctrlEsc m).keysym = k ∧ s.row.sticky m ≠ .off := by
  intro point
  obtain ⟨s, hs⟩ : ∃ s, run (step ctrlEsc) (new ⟨[0, 1], by decide⟩)
      [.setVisible true, .claimTouch 0 point, .claimEnded 0 point 1000 300] = some s := ⟨_, rfl⟩
  exact ⟨s, hs, (modifiers_held hs).1⟩

end ExtensionKeyboard

end Vento.Control
