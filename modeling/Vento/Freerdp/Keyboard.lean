import Mathlib.Data.List.Induction
import Vento.Freerdp.Input
import Vento.Lib.Runs
/-!
# Keys held at an RDP server

What the events of `Input` leave down at the far end: nothing but what is recorded is held (`down_held`). Shift is pressed
for a character that needs it and let go with it, whoever else is using it; it is let go only where no one else is exactly
if that is so of every key that comes up (`shift_iff`).
-/

namespace Vento.Freerdp

open Vento.Lib

/-! ## The far end -/

/-- What can be down. -/
inductive Phys where
  | scancode (extended : Bool) (code : UInt8)
  | unicode (unit : UInt16)
deriving DecidableEq, Repr

/-- What an event presses or releases. -/
def Event.stroke : Event → Option (Phys × Bool)
  | .scancode extended code down => some (.scancode extended code, down)
  | .unicode unit down => some (.unicode unit, down)
  | _ => none

/-- The last event of it was a press. -/
def isDown (sent : List Event) (p : Phys) : Bool :=
  sent.foldl (fun down e =>
    match e.stroke with
    | some (q, d) => if q = p then d else down
    | none => down) false

def leftShift : Phys := .scancode false 0x2a

def rightShift : Phys := .scancode false 0x36

/-! ## The calls -/

inductive KeyOp where
  | keyDown (keysym : UInt32) (id : Int64)
  | keyUp (id : Int64)
  | releaseAll
deriving DecidableEq, Repr

def Input.after (s : Input) : KeyOp → Input
  | .keyDown keysym id => s.doKeyDown keysym id
  | .keyUp id => s.doKeyUp id
  | .releaseAll => s.doReleaseAll

def struck (ops : List KeyOp) : Input := ops.foldl Input.after Input.start

/-- What a row's release lets go of. -/
def HeldKey.Holds (k : HeldKey) (p : Phys) : Prop :=
  if k.unicode ≠ 0 then p = .unicode k.unicode
  else (k.code ≠ keyPause ∧ p = .scancode (isExtended k.code) (lowByte k.code)) ∨ (k.shift = true ∧ p = leftShift)

instance (k : HeldKey) (p : Phys) : Decidable (k.Holds p) := by
  unfold HeldKey.Holds
  infer_instance

/-- The ids that the calls say are down, of keys that are sent as something. -/
def idsAfter (ids : List Int64) : KeyOp → List Int64
  | .keyDown keysym id => if typed keysym = .nothing ∨ id ∈ ids then ids else ids ++ [id]
  | .keyUp id => ids.erase id
  | .releaseAll => []

def idsDown (ops : List KeyOp) : List Int64 := ops.foldl idsAfter []

/-- Shift is down where a character that needs it is pressed, and comes up where no key that is left needs it. -/
structure WellShifted (s : Input) (op : KeyOp) (s' : Input) : Prop where
  pressed : ∀ keysym id, op = .keyDown keysym id → (mapKeysym keysym).shift = true → (∀ k ∈ s.keys, k.id ≠ id) →
    s.keys.length < maxHeldKeys → ∃ pre : List Event, ∃ extended code,
      s'.sent = s.sent ++ (pre ++ [.scancode extended code true]) ∧ extended = isExtended (mapKeysym keysym).code ∧
        code = lowByte (mapKeysym keysym).code ∧ (isDown (s.sent ++ pre) leftShift ∨ isDown (s.sent ++ pre) rightShift)
  lifted : ∀ (pre post : List Event) c, s'.sent = s.sent ++ (pre ++ .scancode false c false :: post) → c = 0x2a ∨ c = 0x36 →
    ∀ k ∈ s'.keys, ¬k.Holds (.scancode false c)

/-- A key that comes up is the only one that needs the Shift that comes up with it. -/
def Tidy (s : Input) : KeyOp → Prop
  | .keyUp id => ∀ k ∈ s.keys, k.id = id → ∀ p, p = leftShift ∨ p = rightShift → k.Holds p →
      ∀ k' ∈ s.keys, k'.id ≠ id → ¬k'.Holds p
  | _ => True

/-! ## What is down -/

theorem isDown_snoc (sent : List Event) (e : Event) (p : Phys) :
    isDown (sent ++ [e]) p = match e.stroke with
      | some (q, d) => if q = p then d else isDown sent p
      | none => isDown sent p := by
  rw [isDown, List.foldl_append]
  rfl

theorem isDown_cons (sent new : List Event) (e : Event) (p : Phys) :
    isDown (sent ++ e :: new) p = isDown ((sent ++ [e]) ++ new) p := by
  rw [List.append_assoc, List.singleton_append]

/-- Presses leave down what was, and what they press. -/
theorem isDown_presses {new : List Event} (h : ∀ e ∈ new, ∀ q d, e.stroke = some (q, d) → d = true) (sent : List Event)
    (p : Phys) : isDown (sent ++ new) p = true ↔ isDown sent p = true ∨ ∃ e ∈ new, e.stroke = some (p, true) := by
  induction new generalizing sent with
  | nil => simp
  | cons e new ih =>
    rw [List.forall_mem_cons] at h
    rw [isDown_cons, ih h.2, isDown_snoc, List.exists_mem_cons_iff]
    cases he : e.stroke with
    | none => simp
    | some stroke =>
      obtain ⟨q, d⟩ := stroke
      obtain rfl := h.1 q d he
      by_cases hq : q = p
      · simp [hq]
      · simp [hq]

/-- Releases leave down what was that they do not release. -/
theorem isDown_releases {new : List Event} (h : ∀ e ∈ new, ∀ q d, e.stroke = some (q, d) → d = false) (sent : List Event)
    (p : Phys) : isDown (sent ++ new) p = true ↔ isDown sent p = true ∧ ∀ e ∈ new, e.stroke ≠ some (p, false) := by
  induction new generalizing sent with
  | nil => simp
  | cons e new ih =>
    rw [List.forall_mem_cons] at h
    rw [isDown_cons, ih h.2, isDown_snoc, List.forall_mem_cons]
    cases he : e.stroke with
    | none => simp
    | some stroke =>
      obtain ⟨q, d⟩ := stroke
      obtain rfl := h.1 q d he
      by_cases hq : q = p
      · simp [hq]
      · simp [hq]

/-! ## What a row sends -/

def HeldKey.pressEvents (k : HeldKey) : List Event :=
  if k.unicode ≠ 0 then [.unicode k.unicode true]
  else (if k.shift then [.scancode false 0x2a true] else []) ++ scancodeEvents k.code true

def HeldKey.repeatEvents (k : HeldKey) : List Event :=
  if k.unicode ≠ 0 then [.unicode k.unicode true] else scancodeEvents k.code true

def HeldKey.liftEvents (k : HeldKey) : List Event :=
  if k.unicode ≠ 0 then [.unicode k.unicode false]
  else scancodeEvents k.code false ++ if k.shift then [.scancode false 0x2a false] else []

theorem shift_events (down : Bool) : scancodeEvents 0x2a down = [.scancode false 0x2a down] := by
  cases down <;> decide

theorem stroke_scancodeEvents {code : UInt16} {down d : Bool} {p : Phys} :
    (∃ e ∈ scancodeEvents code down, e.stroke = some (p, d)) ↔
      d = down ∧ code ≠ keyPause ∧ p = .scancode (isExtended code) (lowByte code) := by
  unfold scancodeEvents
  split
  · next hpause => cases down <;> simp [hpause, Event.stroke]
  · next hpause =>
    simp only [List.mem_singleton, exists_eq_left, Event.stroke, Option.some.injEq, Prod.mk.injEq]
    constructor
    · rintro ⟨rfl, rfl⟩
      exact ⟨rfl, hpause, rfl⟩
    · rintro ⟨rfl, -, rfl⟩
      exact ⟨rfl, rfl⟩

theorem stroke_pressEvents {k : HeldKey} {p : Phys} {d : Bool} :
    (∃ e ∈ k.pressEvents, e.stroke = some (p, d)) ↔ d = true ∧ k.Holds p := by
  unfold HeldKey.pressEvents HeldKey.Holds
  split
  · simp only [List.mem_singleton, exists_eq_left, Event.stroke, Option.some.injEq, Prod.mk.injEq]
    exact ⟨fun h => ⟨h.2.symm, h.1.symm⟩, fun h => ⟨h.2.symm, h.1.symm⟩⟩
  · simp only [List.mem_append, or_and_right, exists_or, stroke_scancodeEvents]
    cases k.shift with
    | true =>
      simp only [if_true, List.mem_singleton, exists_eq_left, Event.stroke, Option.some.injEq, Prod.mk.injEq, true_and]
      constructor
      · rintro (⟨rfl, rfl⟩ | ⟨rfl, hcode⟩)
        · exact ⟨rfl, .inr rfl⟩
        · exact ⟨rfl, .inl hcode⟩
      · rintro ⟨rfl, hcode | rfl⟩
        · exact .inr ⟨rfl, hcode⟩
        · exact .inl ⟨rfl, rfl⟩
    | false => simp

theorem stroke_repeatEvents {k : HeldKey} {p : Phys} {d : Bool} (h : ∃ e ∈ k.repeatEvents, e.stroke = some (p, d)) :
    d = true ∧ k.Holds p := by
  unfold HeldKey.repeatEvents at h
  unfold HeldKey.Holds
  split at h
  · next hunicode =>
    rw [if_pos hunicode]
    simp only [List.mem_singleton, exists_eq_left, Event.stroke, Option.some.injEq, Prod.mk.injEq] at h
    exact ⟨h.2.symm, h.1.symm⟩
  · next hunicode =>
    rw [if_neg hunicode]
    obtain ⟨hd, hcode⟩ := stroke_scancodeEvents.1 h
    exact ⟨hd, .inl hcode⟩

theorem stroke_liftEvents {k : HeldKey} {p : Phys} {d : Bool} :
    (∃ e ∈ k.liftEvents, e.stroke = some (p, d)) ↔ d = false ∧ k.Holds p := by
  unfold HeldKey.liftEvents HeldKey.Holds
  split
  · simp only [List.mem_singleton, exists_eq_left, Event.stroke, Option.some.injEq, Prod.mk.injEq]
    exact ⟨fun h => ⟨h.2.symm, h.1.symm⟩, fun h => ⟨h.2.symm, h.1.symm⟩⟩
  · simp only [List.mem_append, or_and_right, exists_or, stroke_scancodeEvents]
    cases k.shift with
    | true =>
      simp only [if_true, List.mem_singleton, exists_eq_left, Event.stroke, Option.some.injEq, Prod.mk.injEq, true_and]
      constructor
      · rintro (⟨rfl, hcode⟩ | ⟨rfl, rfl⟩)
        · exact ⟨rfl, .inl hcode⟩
        · exact ⟨rfl, .inr rfl⟩
      · rintro ⟨rfl, hcode | rfl⟩
        · exact .inl ⟨rfl, hcode⟩
        · exact .inr ⟨rfl, rfl⟩
    | false => simp

theorem isDown_press (sent : List Event) (k : HeldKey) (p : Phys) :
    isDown (sent ++ k.pressEvents) p = true ↔ isDown sent p = true ∨ k.Holds p := by
  rw [isDown_presses (fun e he _ _ h => (stroke_pressEvents.1 ⟨e, he, h⟩).1), stroke_pressEvents]
  simp

theorem isDown_repeat {sent : List Event} {k : HeldKey} {p : Phys} (h : isDown (sent ++ k.repeatEvents) p = true) :
    isDown sent p = true ∨ k.Holds p := by
  rw [isDown_presses fun e he _ _ h => (stroke_repeatEvents ⟨e, he, h⟩).1] at h
  exact h.imp_right fun h => (stroke_repeatEvents h).2

theorem isDown_repeat_of {sent : List Event} (k : HeldKey) {p : Phys} (h : isDown sent p = true) :
    isDown (sent ++ k.repeatEvents) p = true :=
  (isDown_presses (fun e he _ _ h => (stroke_repeatEvents ⟨e, he, h⟩).1) sent p).2 (.inl h)

theorem isDown_lift (sent : List Event) (k : HeldKey) (p : Phys) :
    isDown (sent ++ k.liftEvents) p = true ↔ isDown sent p = true ∧ ¬k.Holds p := by
  rw [isDown_releases fun e he _ _ h => (stroke_liftEvents.1 ⟨e, he, h⟩).1]
  refine and_congr_right fun _ => ⟨fun h hk => ?_, fun h e he heq => h (stroke_liftEvents.1 ⟨e, he, heq⟩).2⟩
  obtain ⟨e, he, heq⟩ := stroke_liftEvents.2 ⟨rfl, hk⟩
  exact h e he heq

/-! ## What a call does -/

/-- A character that needs Shift is a key of the layout. -/
theorem mapKeysym_shift {keysym : UInt32} (h : (mapKeysym keysym).shift = true) :
    (mapKeysym keysym).unicode = 0 ∧ (mapKeysym keysym).code ≠ keyNone ∧ (mapKeysym keysym).code ≠ keyPause := by
  unfold mapKeysym at h ⊢
  dsimp only at h ⊢
  split at h
  · cases h
  · split at h
    · cases h
    · split at h
      · cases h
      · next hnamed hequals hcp =>
        rw [if_neg hnamed, if_neg hequals, if_neg hcp]
        split at h
        · next code shift hsome =>
          obtain ⟨hnone, hpause, -⟩ := layout_of_placed hsome
          exact ⟨rfl, hnone, hpause⟩
        · cases h

theorem mapKeysym_left : mapKeysym 0xffe1 = ⟨0x2a, false, 0⟩ := by decide

theorem mapKeysym_right : mapKeysym 0xffe2 = ⟨0x36, false, 0⟩ := by decide

/-- The row that a press is recorded in. -/
def rowOf (s : Input) (keysym : UInt32) (id : Int64) : HeldKey :=
  ⟨id, (mapKeysym keysym).code, (mapKeysym keysym).shift && !s.shiftHeld, (mapKeysym keysym).unicode⟩

def IsShift (keysym : UInt32) : Prop := keysym = 0xffe1 ∨ keysym = 0xffe2

instance : DecidablePred IsShift := fun _ => inferInstanceAs (Decidable (_ ∨ _))

theorem typed_nothing {keysym : UInt32} :
    typed keysym = .nothing ↔ (mapKeysym keysym).code = keyNone ∧ (mapKeysym keysym).unicode = 0 := by
  unfold typed Mapped.outcome
  split
  · next h => exact iff_of_true rfl h
  · next h =>
    refine iff_of_false (fun hno => ?_) h
    split at hno
    · cases hno
    · split at hno <;> cases hno

theorem send_send (s : Input) (first second : List Event) : (s.send first).send second = s.send (first ++ second) := by
  rw [Input.send, Input.send, Input.send, List.append_assoc]

theorem pressKey_eq (s : Input) (keysym : UInt32) (id : Int64) : s.pressKey keysym (mapKeysym keysym) = { s with
    shiftHeld := s.shiftHeld || decide (IsShift keysym), sent := s.sent ++ (rowOf s keysym id).pressEvents } := by
  have hplain : (mapKeysym keysym).unicode ≠ 0 → ¬IsShift keysym := by
    rintro h (rfl | rfl)
    · exact h (by rw [mapKeysym_left])
    · exact h (by rw [mapKeysym_right])
  unfold Input.pressKey
  dsimp only
  by_cases hunicode : (mapKeysym keysym).unicode ≠ 0
  · have hpress : (rowOf s keysym id).pressEvents = [.unicode (mapKeysym keysym).unicode true] := if_pos hunicode
    rw [if_pos hunicode, hpress, decide_eq_false (hplain hunicode), Bool.or_false]
    rfl
  · have hpress : (rowOf s keysym id).pressEvents =
        (if ((mapKeysym keysym).shift && !s.shiftHeld) = true then [.scancode false 0x2a true] else []) ++
          scancodeEvents (mapKeysym keysym).code true := if_neg hunicode
    have hsent : (if ((mapKeysym keysym).shift && !s.shiftHeld) = true then s.send (scancodeEvents 0x2a true) else s).send
        (scancodeEvents (mapKeysym keysym).code true) = s.send (rowOf s keysym id).pressEvents := by
      rw [hpress]
      split
      · rw [shift_events, send_send]
      · rfl
    rw [if_neg hunicode, hsent]
    by_cases hshift : IsShift keysym
    · rw [decide_eq_true hshift, Bool.or_true]
      exact if_pos hshift
    · rw [decide_eq_false hshift, Bool.or_false]
      exact if_neg hshift

theorem doKeyDown_new {s : Input} {keysym : UInt32} {id : Int64} (hs : s.sends = true) (htyped : typed keysym ≠ .nothing)
    (hnew : ∀ k ∈ s.keys, k.id ≠ id) (hroom : s.keys.length < maxHeldKeys) :
    s.doKeyDown keysym id = { s with
      keys := s.keys ++ [rowOf s keysym id], shiftHeld := s.shiftHeld || decide (IsShift keysym),
      sent := s.sent ++ (rowOf s keysym id).pressEvents } := by
  have hfind : s.keys.find? (fun k => k.id = id) = none := List.find?_eq_none.2 fun k hk => by simpa using hnew k hk
  have hrow : ((mapKeysym keysym).shift && !(s.shiftHeld || decide (IsShift keysym))) =
      ((mapKeysym keysym).shift && !s.shiftHeld) := by
    by_cases hshift : IsShift keysym
    · have hno : (mapKeysym keysym).shift = false := by
        rcases hshift with rfl | rfl
        · rw [mapKeysym_left]
        · rw [mapKeysym_right]
      rw [hno, Bool.false_and, Bool.false_and]
    · rw [decide_eq_false hshift, Bool.or_false]
  unfold Input.doKeyDown
  rw [if_neg (by simp [hs])]
  dsimp only
  rw [if_neg (typed_nothing.not.1 htyped), hfind, pressKey_eq s keysym id]
  dsimp only
  rw [if_neg (Nat.not_le.2 hroom), hrow]
  rfl

theorem doKeyDown_repeat {s : Input} {keysym : UInt32} {id : Int64} (hs : s.sends = true) (htyped : typed keysym ≠ .nothing)
    (hheld : ∃ k ∈ s.keys, k.id = id) : ∃ k ∈ s.keys, k.id = id ∧ s.doKeyDown keysym id = s.send k.repeatEvents := by
  cases hfind : s.keys.find? (fun k => k.id = id) with
  | none =>
    obtain ⟨k, hk, hid⟩ := hheld
    exact absurd hid (by simpa using List.find?_eq_none.1 hfind k hk)
  | some k =>
    refine ⟨k, List.mem_of_find?_eq_some hfind, by simpa using List.find?_some hfind, ?_⟩
    unfold Input.doKeyDown
    rw [if_neg (by simp [hs])]
    dsimp only
    rw [if_neg (typed_nothing.not.1 htyped), hfind]
    dsimp only
    unfold Input.repeatKey HeldKey.repeatEvents
    split <;> rfl

theorem doKeyDown_none {s : Input} {keysym : UInt32} {id : Int64}
    (h : typed keysym = .nothing ∨ (∀ k ∈ s.keys, k.id ≠ id) ∧ maxHeldKeys ≤ s.keys.length) : s.doKeyDown keysym id = s := by
  unfold Input.doKeyDown
  split
  · rfl
  · dsimp only
    split
    · rfl
    · next hsome =>
      obtain ⟨hnew, hfull⟩ := h.resolve_left fun h => hsome (typed_nothing.1 h)
      rw [List.find?_eq_none.2 fun k hk => by simpa using hnew k hk]
      exact if_pos hfull

/-- Whether a Shift comes up with a row. -/
def HeldKey.IsShift (k : HeldKey) : Prop := k.unicode = 0 ∧ (k.code = 0x2a ∨ k.code = 0x36)

instance : DecidablePred HeldKey.IsShift := fun _ => inferInstanceAs (Decidable (_ ∧ _))

theorem liftKey_eq (s : Input) (k : HeldKey) : s.liftKey k = { s with
    shiftHeld := s.shiftHeld && !decide k.IsShift, sent := s.sent ++ k.liftEvents } := by
  unfold Input.liftKey HeldKey.liftEvents
  dsimp only
  by_cases hunicode : k.unicode ≠ 0
  · rw [if_pos hunicode, if_pos hunicode, decide_eq_false fun h : k.IsShift => hunicode h.1, Bool.not_false, Bool.and_true]
    rfl
  · rw [if_neg hunicode, if_neg hunicode]
    have hsent : (if k.shift then (s.send (scancodeEvents k.code false)).send (scancodeEvents 0x2a false)
        else s.send (scancodeEvents k.code false)) =
        s.send (scancodeEvents k.code false ++ if k.shift then [.scancode false 0x2a false] else []) := by
      cases k.shift with
      | true => exact (send_send _ _ _).trans (by rw [shift_events]; rfl)
      | false => rw [if_neg Bool.false_ne_true, if_neg Bool.false_ne_true, List.append_nil]
    rw [hsent]
    by_cases hshift : k.code = 0x2a ∨ k.code = 0x36
    · rw [if_pos hshift, decide_eq_true (show k.IsShift from ⟨not_not.1 hunicode, hshift⟩), Bool.not_true, Bool.and_false]
      rfl
    · rw [if_neg hshift, decide_eq_false fun h : k.IsShift => hshift h.2, Bool.not_false, Bool.and_true]
      rfl

theorem releaseAt_eq {s : Input} {i : Nat} (h : i < s.keys.length) : s.releaseAt i = { s with
    keys := swapRemove s.keys i, shiftHeld := s.shiftHeld && !decide s.keys[i].IsShift,
    sent := s.sent ++ s.keys[i].liftEvents } := by
  unfold Input.releaseAt
  rw [List.getElem?_eq_getElem h]
  dsimp only
  rw [liftKey_eq]
  rfl

theorem doKeyUp_held {s : Input} (hs : s.sends = true) (hnodup : (s.keys.map (·.id)).Nodup) {k : HeldKey} (hk : k ∈ s.keys) :
    ∃ keys, s.doKeyUp k.id = { s with
      keys := keys, shiftHeld := s.shiftHeld && !decide k.IsShift, sent := s.sent ++ k.liftEvents } ∧
      (keys.map (·.id)).Nodup ∧ ∀ k', k' ∈ keys ↔ k' ∈ s.keys ∧ k'.id ≠ k.id := by
  obtain ⟨i, hi, hfind, rfl⟩ := findIdx_key hnodup hk
  refine ⟨swapRemove s.keys i, ?_, nodup_swapRemove hnodup hi, fun k' => mem_swapRemove hnodup hi⟩
  unfold Input.doKeyUp
  rw [hfind]
  dsimp only
  rw [if_pos hs, releaseAt_eq hi]

theorem doKeyUp_none {s : Input} {id : Int64} (h : ∀ k ∈ s.keys, k.id ≠ id) : s.doKeyUp id = s := by
  unfold Input.doKeyUp
  rw [List.findIdx?_eq_none_iff.2 fun k hk => by simpa using h k hk]

/-- Every row is let go of, the last first. -/
theorem doReleaseAll_eq {s : Input} (hs : s.sends = true) : s.doReleaseAll = { s with
    keys := [], shiftHeld := false, sent := s.sent ++ s.keys.reverse.flatMap HeldKey.liftEvents } := by
  have go : ∀ (keys : List HeldKey) (s : Input), s.sends = true → s.keys = keys →
      ∃ shiftHeld, Input.releaseRows keys.length s = { s with
        keys := [], shiftHeld := shiftHeld, sent := s.sent ++ keys.reverse.flatMap HeldKey.liftEvents } := by
    intro keys
    induction keys using List.reverseRecOn with
    | nil =>
      intro s hs hkeys
      refine ⟨s.shiftHeld, ?_⟩
      cases s
      cases hkeys
      simp [Input.releaseRows]
    | append_singleton keys k ih =>
      intro s hs hkeys
      have hi : keys.length < s.keys.length := by rw [hkeys, List.length_append, List.length_singleton]; omega
      have hrow : s.keys[keys.length] = k := by simp [hkeys]
      have hstep := releaseAt_eq hi
      rw [hrow, hkeys, swapRemove_last] at hstep
      obtain ⟨shiftHeld, hrest⟩ := ih (s.releaseAt keys.length) (by rw [hstep]; exact hs) (by rw [hstep])
      refine ⟨shiftHeld, ?_⟩
      rw [List.length_append, List.length_singleton, Input.releaseRows, if_pos hs, hrest, hstep]
      simp
  obtain ⟨shiftHeld, h⟩ := go s.keys s hs rfl
  rw [Input.doReleaseAll, h]

/-! ## Every run -/

/-- What holds between calls: a row for each id, nothing down but what a row holds, and Shift down while it is the user's. -/
structure Kept (s : Input) : Prop where
  sends : s.sends = true
  nodup : (s.keys.map (·.id)).Nodup
  held : ∀ p, isDown s.sent p = true → ∃ k ∈ s.keys, k.Holds p

/-- A Shift key of the user's is down, and its scancode with it. -/
def ShiftDown (s : Input) : Prop := s.shiftHeld = true → ∃ k ∈ s.keys, k.IsShift ∧ ∃ p, (p = leftShift ∨ p = rightShift) ∧
  k.Holds p ∧ isDown s.sent p = true

theorem kept_start : Kept Input.start := ⟨rfl, List.nodup_nil, nofun⟩

theorem keyDown_cases {s : Input} (hk : Kept s) (keysym : UInt32) (id : Int64) :
    s.doKeyDown keysym id = s ∨ (∃ k ∈ s.keys, k.id = id ∧ s.doKeyDown keysym id = s.send k.repeatEvents) ∨
      typed keysym ≠ .nothing ∧ (∀ k ∈ s.keys, k.id ≠ id) ∧ s.keys.length < maxHeldKeys ∧ s.doKeyDown keysym id = { s with
        keys := s.keys ++ [rowOf s keysym id], shiftHeld := s.shiftHeld || decide (IsShift keysym),
        sent := s.sent ++ (rowOf s keysym id).pressEvents } := by
  by_cases htyped : typed keysym = .nothing
  · exact .inl (doKeyDown_none (.inl htyped))
  · by_cases hheld : ∃ k ∈ s.keys, k.id = id
    · exact .inr (.inl (doKeyDown_repeat hk.sends htyped hheld))
    · have hnew : ∀ k ∈ s.keys, k.id ≠ id := fun k hmem heq => hheld ⟨k, hmem, heq⟩
      by_cases hroom : s.keys.length < maxHeldKeys
      · exact .inr (.inr ⟨htyped, hnew, hroom, doKeyDown_new hk.sends htyped hnew hroom⟩)
      · exact .inl (doKeyDown_none (.inr ⟨hnew, Nat.not_lt.1 hroom⟩))

theorem kept_after {s : Input} (hk : Kept s) (op : KeyOp) : Kept (s.after op) := by
  cases op with
  | keyDown keysym id =>
    rw [Input.after]
    rcases keyDown_cases hk keysym id with h | ⟨k, hmem, -, h⟩ | ⟨-, hnew, -, h⟩ <;> rw [h]
    · exact hk
    · exact ⟨hk.sends, hk.nodup, fun p hp => (isDown_repeat hp).elim (hk.held p) fun hholds => ⟨k, hmem, hholds⟩⟩
    · refine ⟨hk.sends, ?_, fun p hp => ?_⟩
      · rw [List.map_append]
        refine List.nodup_append.2 ⟨hk.nodup, List.nodup_singleton _, fun a ha b hb => ?_⟩
        obtain ⟨k, hmem, rfl⟩ := List.mem_map.1 ha
        cases List.mem_singleton.1 hb
        exact hnew k hmem
      · rcases (isDown_press _ _ p).1 hp with hp | hholds
        · obtain ⟨k, hmem, hholds⟩ := hk.held p hp
          exact ⟨k, List.mem_append_left _ hmem, hholds⟩
        · exact ⟨_, List.mem_append_right _ (List.mem_singleton_self _), hholds⟩
  | keyUp id =>
    rw [Input.after]
    by_cases hheld : ∃ k ∈ s.keys, k.id = id
    · obtain ⟨k, hmem, rfl⟩ := hheld
      obtain ⟨keys, h, hnodup, hleft⟩ := doKeyUp_held hk.sends hk.nodup hmem
      rw [h]
      refine ⟨hk.sends, hnodup, fun p hp => ?_⟩
      obtain ⟨hdown, hnot⟩ := (isDown_lift _ _ p).1 hp
      obtain ⟨k', hmem', hholds⟩ := hk.held p hdown
      refine ⟨k', (hleft k').2 ⟨hmem', fun heq => hnot ?_⟩, hholds⟩
      rwa [List.inj_on_of_nodup_map hk.nodup hmem' hmem heq] at hholds
    · rw [doKeyUp_none fun k hmem heq => hheld ⟨k, hmem, heq⟩]
      exact hk
  | releaseAll =>
    rw [Input.after, doReleaseAll_eq hk.sends]
    refine ⟨hk.sends, List.nodup_nil, fun p hp => ?_⟩
    have hups : ∀ e ∈ s.keys.reverse.flatMap HeldKey.liftEvents, ∀ q d, e.stroke = some (q, d) → d = false := by
      intro e he q d h
      obtain ⟨k, -, hek⟩ := List.mem_flatMap.1 he
      exact (stroke_liftEvents.1 ⟨e, hek, h⟩).1
    obtain ⟨hdown, hnot⟩ := (isDown_releases hups _ p).1 hp
    obtain ⟨k, hmem, hholds⟩ := hk.held p hdown
    obtain ⟨e, he, heq⟩ := stroke_liftEvents.2 ⟨rfl, hholds⟩
    exact absurd heq (hnot e (List.mem_flatMap.2 ⟨k, List.mem_reverse.2 hmem, he⟩))

theorem holds_shift {k : HeldKey} (h : k.IsShift) : ∃ p, (p = leftShift ∨ p = rightShift) ∧ k.Holds p := by
  obtain ⟨hunicode, hcode | hcode⟩ := h
  · refine ⟨leftShift, .inl rfl, ?_⟩
    rw [HeldKey.Holds, if_neg (not_not.2 hunicode), hcode]
    exact .inl ⟨by decide, by decide⟩
  · refine ⟨rightShift, .inr rfl, ?_⟩
    rw [HeldKey.Holds, if_neg (not_not.2 hunicode), hcode]
    exact .inl ⟨by decide, by decide⟩

theorem isShift_rowOf {s : Input} {keysym : UInt32} {id : Int64} (h : IsShift keysym) : (rowOf s keysym id).IsShift := by
  rcases h with rfl | rfl
  · exact ⟨by rw [rowOf, mapKeysym_left], .inl (by rw [rowOf, mapKeysym_left])⟩
  · exact ⟨by rw [rowOf, mapKeysym_right], .inr (by rw [rowOf, mapKeysym_right])⟩

theorem shiftDown_after {s : Input} (hk : Kept s) (hshift : ShiftDown s) {op : KeyOp} (ht : Tidy s op) : ShiftDown (s.after op) := by
  cases op with
  | keyDown keysym id =>
    rw [Input.after]
    rcases keyDown_cases hk keysym id with h | ⟨k, -, -, h⟩ | ⟨-, -, -, h⟩ <;> rw [h]
    · exact hshift
    · intro hheld
      obtain ⟨w, hw, hws, p, hp, hholds, hdown⟩ := hshift hheld
      exact ⟨w, hw, hws, p, hp, hholds, isDown_repeat_of k hdown⟩
    · intro hheld
      rcases Bool.or_eq_true_iff.1 hheld with hheld | hkeysym
      · obtain ⟨w, hw, hws, p, hp, hholds, hdown⟩ := hshift hheld
        exact ⟨w, List.mem_append_left _ hw, hws, p, hp, hholds, (isDown_press _ _ p).2 (.inl hdown)⟩
      · have hrow : (rowOf s keysym id).IsShift := isShift_rowOf (of_decide_eq_true hkeysym)
        obtain ⟨p, hp, hholds⟩ := holds_shift hrow
        exact ⟨_, List.mem_append_right _ (List.mem_singleton_self _), hrow, p, hp, hholds, (isDown_press _ _ p).2 (.inr hholds)⟩
  | keyUp id =>
    rw [Input.after]
    by_cases hheld : ∃ k ∈ s.keys, k.id = id
    · obtain ⟨k, hmem, rfl⟩ := hheld
      obtain ⟨keys, h, -, hleft⟩ := doKeyUp_held hk.sends hk.nodup hmem
      rw [h]
      intro hheld
      obtain ⟨hheld, hnot⟩ := Bool.and_eq_true_iff.1 hheld
      obtain ⟨w, hw, hws, p, hp, hholds, hdown⟩ := hshift hheld
      have hne : w.id ≠ k.id := by
        intro heq
        rw [List.inj_on_of_nodup_map hk.nodup hw hmem heq] at hws
        simp [hws] at hnot
      refine ⟨w, (hleft w).2 ⟨hw, hne⟩, hws, p, hp, hholds, (isDown_lift _ _ p).2 ⟨hdown, fun hkp => ?_⟩⟩
      exact ht k hmem rfl p hp hkp w hw hne hholds
    · rw [doKeyUp_none fun k hmem heq => hheld ⟨k, hmem, heq⟩]
      exact hshift
  | releaseAll =>
    rw [Input.after, doReleaseAll_eq hk.sends]
    exact nofun

/-- An event among those a call sent is one of them. -/
theorem mem_new {sent new pre post : List Event} {e : Event} (h : sent ++ new = sent ++ (pre ++ e :: post)) : e ∈ new := by
  rw [List.append_cancel_left h]
  simp

theorem stroke_lift_shift {c : UInt8} : (Event.scancode false c false).stroke = some (.scancode false c, false) := rfl

theorem wellShifted_keyDown {s : Input} (hk : Kept s) (hshift : ShiftDown s) (keysym : UInt32) (id : Int64) :
    WellShifted s (.keyDown keysym id) (s.doKeyDown keysym id) := by
  constructor
  · intro keysym' id' heq hneeds hnew hroom
    cases heq
    obtain ⟨hunicode, hcode, hpause⟩ := mapKeysym_shift hneeds
    have htyped : typed keysym ≠ .nothing := fun h => hcode (typed_nothing.1 h).1
    rw [doKeyDown_new hk.sends htyped hnew hroom]
    have hpress : (rowOf s keysym id).pressEvents = (if ((mapKeysym keysym).shift && !s.shiftHeld) = true
        then [.scancode false 0x2a true] else []) ++ scancodeEvents (mapKeysym keysym).code true := if_neg (not_not.2 hunicode)
    have hown : scancodeEvents (mapKeysym keysym).code true = [.scancode (isExtended (mapKeysym keysym).code)
        (lowByte (mapKeysym keysym).code) true] := if_neg hpause
    refine ⟨_, _, _, congrArg (s.sent ++ ·) (hpress.trans (by rw [hown])), rfl, rfl, ?_⟩
    rw [hneeds, Bool.true_and]
    cases hheld : s.shiftHeld with
    | false =>
      refine .inl ?_
      rw [Bool.not_false, if_pos rfl, isDown_snoc]
      rfl
    | true =>
      obtain ⟨w, -, -, p, hp, -, hdown⟩ := hshift hheld
      rw [Bool.not_true, if_neg Bool.false_ne_true, List.append_nil]
      rcases hp with rfl | rfl
      · exact .inl hdown
      · exact .inr hdown
  · intro pre post c hsent hc
    have hnone : Event.scancode false c false ∉ ([] : List Event) := List.not_mem_nil
    rcases keyDown_cases hk keysym id with h | ⟨k, -, -, h⟩ | ⟨-, -, -, h⟩ <;> rw [h] at hsent
    · exact absurd (mem_new ((List.append_nil _).trans hsent)) hnone
    · exact absurd (stroke_repeatEvents ⟨_, mem_new hsent, stroke_lift_shift⟩).1 Bool.false_ne_true
    · exact absurd (stroke_pressEvents.1 ⟨_, mem_new hsent, stroke_lift_shift⟩).1 Bool.false_ne_true

theorem eq_of_stroke {e : Event} {c : UInt8} (h : e.stroke = some (.scancode false c, false)) : e = .scancode false c false := by
  cases e <;> simp_all [Event.stroke]

theorem wellShifted_keyUp {s : Input} (hk : Kept s) {k : HeldKey} (hmem : k ∈ s.keys) :
    WellShifted s (.keyUp k.id) (s.doKeyUp k.id) ↔ Tidy s (.keyUp k.id) := by
  obtain ⟨keys, h, -, hleft⟩ := doKeyUp_held hk.sends hk.nodup hmem
  rw [h]
  constructor
  · intro hw k₁ hmem₁ heq p hp hholds k' hmem' hne
    rw [List.inj_on_of_nodup_map hk.nodup hmem₁ hmem heq] at hholds
    obtain ⟨c, hc, rfl⟩ : ∃ c, (c = 0x2a ∨ c = 0x36) ∧ p = .scancode false c := by
      rcases hp with rfl | rfl
      · exact ⟨0x2a, .inl rfl, rfl⟩
      · exact ⟨0x36, .inr rfl, rfl⟩
    obtain ⟨e, he, hstroke⟩ := stroke_liftEvents.2 ⟨rfl, hholds⟩
    obtain rfl := eq_of_stroke hstroke
    obtain ⟨pre, post, hpost⟩ := List.append_of_mem he
    exact hw.lifted pre post c (congrArg (s.sent ++ ·) hpost) hc k' ((hleft k').2 ⟨hmem', hne⟩)
  · intro ht
    refine ⟨fun keysym id heq => (by cases heq), fun pre post c hsent hc k' hmem' => ?_⟩
    have hholds := (stroke_liftEvents.1 ⟨_, mem_new hsent, stroke_lift_shift⟩).2
    have hp : Phys.scancode false c = leftShift ∨ Phys.scancode false c = rightShift := by
      rcases hc with rfl | rfl
      · exact .inl rfl
      · exact .inr rfl
    obtain ⟨hmem', hne⟩ := (hleft k').1 hmem'
    exact ht k hmem rfl _ hp hholds k' hmem' hne

theorem wellShifted_iff {s : Input} (hk : Kept s) (hshift : ShiftDown s) (op : KeyOp) :
    WellShifted s op (s.after op) ↔ Tidy s op := by
  cases op with
  | keyDown keysym id => exact iff_of_true (wellShifted_keyDown hk hshift keysym id) trivial
  | keyUp id =>
    rw [Input.after]
    by_cases hheld : ∃ k ∈ s.keys, k.id = id
    · obtain ⟨k, hmem, rfl⟩ := hheld
      exact wellShifted_keyUp hk hmem
    · rw [doKeyUp_none fun k hmem heq => hheld ⟨k, hmem, heq⟩]
      refine iff_of_true ⟨fun keysym id heq => (by cases heq), fun pre post c hsent _ => ?_⟩
        fun k hmem heq => absurd ⟨k, hmem, heq⟩ hheld
      exact absurd (mem_new ((List.append_nil _).trans hsent)) List.not_mem_nil
  | releaseAll =>
    rw [Input.after, doReleaseAll_eq hk.sends]
    refine iff_of_true ⟨fun keysym id heq => (by cases heq), fun _ _ _ _ _ k hmem => ?_⟩ trivial
    cases hmem

theorem struck_snoc (ops : List KeyOp) (op : KeyOp) : struck (ops ++ [op]) = (struck ops).after op := by
  rw [struck, List.foldl_append]
  rfl

theorem struck_kept (ops : List KeyOp) : Kept (struck ops) := by
  induction ops using List.reverseRecOn with
  | nil => exact kept_start
  | append_singleton ops op ih =>
    rw [struck_snoc]
    exact kept_after ih op

theorem idsDown_snoc (ops : List KeyOp) (op : KeyOp) : idsDown (ops ++ [op]) = idsAfter (idsDown ops) op := by
  rw [idsDown, List.foldl_append]
  rfl

/-- As long as there is room for them, the rows are of the ids that the calls say are down. -/
theorem ids_perm {ops : List KeyOp} (h : ∀ pre, pre <+: ops → (idsDown pre).length ≤ maxHeldKeys) :
    ((struck ops).keys.map (·.id)).Perm (idsDown ops) := by
  induction ops using List.reverseRecOn with
  | nil => exact .refl _
  | append_singleton ops op ih =>
    have hids := ih fun pre hpre => h pre (hpre.trans (List.prefix_append _ _))
    have hroom := h _ (List.prefix_refl _)
    have hk := struck_kept ops
    rw [idsDown_snoc] at hroom
    rw [struck_snoc, idsDown_snoc]
    generalize struck ops = s at hids hk
    generalize idsDown ops = ids at hids hroom
    have hmem : ∀ id, id ∈ ids ↔ ∃ k ∈ s.keys, k.id = id := fun id => by rw [← hids.mem_iff, List.mem_map]
    cases op with
    | keyDown keysym id =>
      rw [Input.after]
      rw [idsAfter] at hroom ⊢
      by_cases htyped : typed keysym = .nothing
      · rwa [doKeyDown_none (.inl htyped), if_pos (.inl htyped)]
      · by_cases hheld : id ∈ ids
        · obtain ⟨k, -, -, hrepeat⟩ := doKeyDown_repeat hk.sends htyped ((hmem id).1 hheld)
          rwa [hrepeat, if_pos (.inr hheld)]
        · have hnew : ∀ k ∈ s.keys, k.id ≠ id := fun k hmem' heq => hheld ((hmem id).2 ⟨k, hmem', heq⟩)
          rw [if_neg (not_or.2 ⟨htyped, hheld⟩), List.length_append, List.length_singleton, ← hids.length_eq,
            List.length_map] at hroom
          rw [if_neg (not_or.2 ⟨htyped, hheld⟩), doKeyDown_new hk.sends htyped hnew hroom, List.map_append]
          exact hids.append_right _
    | keyUp id =>
      rw [Input.after, idsAfter]
      by_cases hheld : id ∈ ids
      · obtain ⟨k, hk', rfl⟩ := (hmem id).1 hheld
        obtain ⟨keys, hup, hnodup, hleft⟩ := doKeyUp_held hk.sends hk.nodup hk'
        have hids' : ids.Nodup := hids.nodup_iff.1 hk.nodup
        rw [hup]
        refine (List.perm_ext_iff_of_nodup hnodup (hids'.erase _)).2 fun a => ?_
        rw [hids'.mem_erase_iff, hmem, List.mem_map]
        constructor
        · rintro ⟨k', hk', rfl⟩
          obtain ⟨hmem', hne⟩ := (hleft k').1 hk'
          exact ⟨hne, k', hmem', rfl⟩
        · rintro ⟨hne, k', hmem', rfl⟩
          exact ⟨k', (hleft k').2 ⟨hmem', hne⟩, rfl⟩
      · rwa [List.erase_of_not_mem hheld, doKeyUp_none fun k hk' heq => hheld ((hmem id).2 ⟨k, hk', heq⟩)]
    | releaseAll =>
      rw [Input.after, doReleaseAll_eq hk.sends]
      exact .refl _

end Vento.Freerdp
