import Mathlib.Algebra.Ring.Nat
import Mathlib.Data.List.GetD
import Mathlib.Data.List.Induction
import Vento.Lib.Runs
/-!
# Keysyms and where they go

The parts of `control/input/Keysym.java` that a character takes to become a
keysym, and the interface of `KeySink.java`, in which a press names a keysym and
an id, and a release the id.
-/

namespace Vento.Control

open Vento.Lib

namespace Keysym

def backspace : UInt32 := 0xff08
def tab : UInt32 := 0xff09
def return' : UInt32 := 0xff0d
def escape : UInt32 := 0xff1b
def delete : UInt32 := 0xffff
def shiftL : UInt32 := 0xffe1

/-- `KeyCharacterMap.COMBINING_ACCENT`. -/
def combiningAccent : UInt32 := 0x80000000

/-- Latin-1 is itself, everything else is out of its way. -/
def fromUnicode (cp : UInt32) : UInt32 :=
  if (0x20 ≤ cp ∧ cp ≤ 0x7e) ∨ (0xa0 ≤ cp ∧ cp ≤ 0xff) then cp else 0x01000000 ||| cp

/-- The dead key for a combining accent. -/
def deadKeysym (accent : UInt32) : UInt32 :=
  match accent with
  | 0x0300 => 0xfe50
  | 0x0301 => 0xfe51
  | 0x0302 => 0xfe52
  | 0x0303 => 0xfe53
  | 0x0304 => 0xfe54
  | 0x0306 => 0xfe55
  | 0x0307 => 0xfe56
  | 0x0308 => 0xfe57
  | 0x030a => 0xfe58
  | 0x030b => 0xfe59
  | 0x030c => 0xfe5a
  | 0x0327 => 0xfe5b
  | 0x0328 => 0xfe5c
  | _ => fromUnicode accent

def fromKeyChar (unicodeChar : UInt32) : UInt32 :=
  if unicodeChar = 0 then 0
  else if unicodeChar &&& combiningAccent ≠ 0 then deadKeysym (unicodeChar &&& ~~~combiningAccent)
  else fromUnicode unicodeChar

/-- A code point from a string: the keys for the control characters that have
one, and 0 for the others. The comparison is a signed one. -/
def forCharacter (cp : UInt32) : UInt32 :=
  if cp = 0x0a ∨ cp = 0x0d then return'
  else if cp = 0x09 then tab
  else if cp = 0x1b then escape
  else if cp = 0x08 then backspace
  else if cp = 0x7f then delete
  else if (0x20 ≤ cp ∧ cp < 0x80000000) ∨ cp &&& combiningAccent ≠ 0 then fromKeyChar cp
  else 0

end Keysym

/-- A call of a `KeySink`. -/
inductive KeyCall where
  | keyDown (keysym : UInt32) (keyId : Int32)
  | keyUp (keyId : Int32)
deriving DecidableEq, Repr

namespace KeySink

/-- The extension keyboard, plus the key's index in the row. -/
def idExtensionKeyboard : Int32 := 0x00010000

/-- Android key events, plus the key code. -/
def idSystemKeyboard : Int32 := 0x00020000

/-- Text committed by the system IME, all of it. -/
def idText : Int32 := 0x00030000

/-- A table by key, after one entry of it is set. -/
theorem getD_set {α : Type} {table : List α} {i : Nat} (h : i < table.length) (a d : α) (j : Nat) :
    (table.set i a).getD j d = if j = i then a else table.getD j d := by
  by_cases hj : j = i
  · rw [if_pos hj, hj, List.getD_eq_getElem?_getD, List.getElem?_set_self h]
    rfl
  · rw [if_neg hj, List.getD_eq_getElem?_getD, List.getElem?_set_ne (Ne.symm hj), List.getD_eq_getElem?_getD]

theorem getD_replicate {α : Type} (n : Nat) (d : α) (i : Nat) : (List.replicate n d).getD i d = d :=
  (List.getD_eq_getElem?_getD ..).trans (List.getElem?_getD_replicate_default_eq ..)

/-- The keys of one producer have ids of their own. -/
theorem id_inj (base : Int32) {a b : Nat} (ha : a < 2 ^ 31) (hb : b < 2 ^ 31)
    (h : base + Int32.ofNat a = base + Int32.ofNat b) : a = b := by
  have hnat := congrArg Int32.toNatClampNeg ((Int32.add_right_inj _).1 h)
  rwa [Int32.toNatClampNeg_ofNat_of_lt ha, Int32.toNatClampNeg_ofNat_of_lt hb] at hnat

end KeySink

/-! ## The far end -/

/-- What a protocol keeps for the far end, the keysym each id went down with, and
what is down there: the id and the keysym of each press that was not let go of.
A release lets go of the keysym that is kept for its id, so one that was pressed
under the same id before it stays down. -/
structure FarEnd where
  held : Int32 → Option UInt32
  down : List (Int32 × UInt32)

namespace FarEnd

def start : FarEnd := ⟨fun _ => none, []⟩

def call (f : FarEnd) : KeyCall → FarEnd
  | .keyDown keysym keyId =>
    { held := fun id => if id = keyId then some keysym else f.held id
      down := (keyId, keysym) :: f.down }
  | .keyUp keyId =>
    match f.held keyId with
    | none => f
    | some keysym =>
      { held := fun id => if id = keyId then none else f.held id
        down := f.down.filter (· ≠ (keyId, keysym)) }

/-- The far end after the calls of a sink. -/
def after (sink : List KeyCall) : FarEnd := sink.foldl call start

def Holds (f : FarEnd) (keysym : UInt32) : Prop := ∃ id, (id, keysym) ∈ f.down

/-- What is down is what is kept. -/
def Clean (f : FarEnd) : Prop := ∀ id keysym, (id, keysym) ∈ f.down ↔ f.held id = some keysym

theorem after_append (sink calls : List KeyCall) : after (sink ++ calls) = calls.foldl call (after sink) :=
  List.foldl_append

theorem clean_start : start.Clean := fun _ _ => ⟨nofun, nofun⟩

theorem keyUp_of_none {f : FarEnd} {keyId : Int32} (h : f.held keyId = none) : f.call (.keyUp keyId) = f := by
  simp only [call, h]

theorem keyUp_of_some {f : FarEnd} {keyId : Int32} {keysym : UInt32} (h : f.held keyId = some keysym) :
    f.call (.keyUp keyId) =
      ⟨fun id => if id = keyId then none else f.held id, f.down.filter (· ≠ (keyId, keysym))⟩ := by
  simp only [call, h]

theorem keyUp_held (f : FarEnd) (keyId id : Int32) :
    (f.call (.keyUp keyId)).held id = if id = keyId then none else f.held id := by
  cases h : f.held keyId with
  | none =>
    rw [keyUp_of_none h]
    by_cases hid : id = keyId
    · rw [if_pos hid, hid, h]
    · rw [if_neg hid]
  | some keysym => rw [keyUp_of_some h]

/-- A press leaves nothing behind if its id was up, or is pressed again. -/
theorem Clean.keyDown {f : FarEnd} (hf : f.Clean) {keysym : UInt32} {keyId : Int32}
    (h : ∀ k, f.held keyId = some k → k = keysym) : (f.call (.keyDown keysym keyId)).Clean := by
  intro id k
  show (id, k) ∈ (keyId, keysym) :: f.down ↔ (if id = keyId then some keysym else f.held id) = some k
  rw [List.mem_cons, hf id k, Prod.mk.injEq]
  by_cases hid : id = keyId
  · subst hid
    rw [if_pos rfl, Option.some_inj]
    constructor
    · rintro (⟨-, hk⟩ | hk)
      · exact hk.symm
      · exact (h k hk).symm
    · exact fun hk => .inl ⟨rfl, hk.symm⟩
  · rw [if_neg hid]
    exact ⟨fun hor => hor.resolve_left fun hk => hid hk.1, .inr⟩

theorem Clean.keyUp {f : FarEnd} (hf : f.Clean) (keyId : Int32) : (f.call (.keyUp keyId)).Clean := by
  cases h : f.held keyId with
  | none =>
    rw [keyUp_of_none h]
    exact hf
  | some keysym =>
    rw [keyUp_of_some h]
    intro id k
    rw [List.mem_filter, hf id k]
    simp only [ne_eq, decide_eq_true_eq, Prod.mk.injEq, not_and]
    by_cases hid : id = keyId
    · subst hid
      rw [if_pos rfl, h, Option.some_inj]
      exact ⟨fun hk => absurd hk.1.symm (hk.2 rfl), nofun⟩
    · rw [if_neg hid]
      exact ⟨fun hk => hk.1, fun hk => ⟨hk, fun h => absurd h hid⟩⟩

/-- A press of an id that is up, and its release, leave the far end as it was. -/
theorem Clean.press_release {f : FarEnd} (hf : f.Clean) {keyId : Int32} (h : f.held keyId = none) (keysym : UInt32) :
    (f.call (.keyDown keysym keyId)).call (.keyUp keyId) = f := by
  have hdown : (f.call (.keyDown keysym keyId)).held keyId = some keysym := if_pos rfl
  rw [keyUp_of_some hdown]
  obtain ⟨held, down⟩ := f
  refine FarEnd.mk.injEq .. ▸ ⟨?_, ?_⟩
  · funext id
    by_cases hid : id = keyId
    · rw [if_pos hid, hid]
      exact h.symm
    · rw [if_neg hid]
      exact if_neg hid
  · show ((keyId, keysym) :: down).filter _ = down
    rw [List.filter_cons_of_neg (by simp)]
    apply List.filter_eq_self.2
    rintro ⟨id, k⟩ hmem
    refine decide_eq_true fun heq => ?_
    cases heq
    have hheld := (hf keyId keysym).1 hmem
    rw [h] at hheld
    cases hheld

/-! ## Releases -/

/-- Every release names an id that is kept, with the keysym of a press that was
sent. -/
def NamesPressed (sink : List KeyCall) : Prop :=
  ∀ pre keyId post, sink = pre ++ .keyUp keyId :: post →
    ∃ keysym, (after pre).held keyId = some keysym ∧ .keyDown keysym keyId ∈ pre

/-- What is kept was pressed. -/
theorem mem_of_held {sink : List KeyCall} {keyId : Int32} {keysym : UInt32}
    (h : (after sink).held keyId = some keysym) : .keyDown keysym keyId ∈ sink := by
  induction sink using List.reverseRecOn with
  | nil => cases h
  | append_singleton sink c ih =>
    rw [after_append, List.foldl_cons, List.foldl_nil] at h
    cases c with
    | keyDown k id =>
      change (if keyId = id then some k else (after sink).held keyId) = some keysym at h
      by_cases hid : keyId = id
      · rw [if_pos hid] at h
        cases h
        rw [hid]
        exact List.mem_append_right _ (List.mem_singleton_self _)
      · rw [if_neg hid] at h
        exact List.mem_append_left _ (ih h)
    | keyUp id =>
      rw [keyUp_held] at h
      by_cases hid : keyId = id
      · rw [if_pos hid] at h
        cases h
      · rw [if_neg hid] at h
        exact List.mem_append_left _ (ih h)

theorem namesPressed_nil : NamesPressed [] := by
  intro pre keyId post h
  exact absurd h.symm (List.append_ne_nil_of_right_ne_nil pre (List.cons_ne_nil _ post))

theorem NamesPressed.keyDown {sink : List KeyCall} (h : NamesPressed sink) (keysym : UInt32) (keyId : Int32) :
    NamesPressed (sink ++ [.keyDown keysym keyId]) := by
  intro pre id post heq
  rcases snoc_eq_append_cons.1 heq with ⟨-, hc, -⟩ | ⟨post', rfl, -⟩
  · cases hc
  · exact h pre id post' rfl

theorem NamesPressed.keyUp {sink : List KeyCall} (h : NamesPressed sink) {keyId : Int32} {keysym : UInt32}
    (hheld : (after sink).held keyId = some keysym) : NamesPressed (sink ++ [.keyUp keyId]) := by
  intro pre id post heq
  rcases snoc_eq_append_cons.1 heq with ⟨rfl, hc, -⟩ | ⟨post', rfl, -⟩
  · cases hc
    exact ⟨keysym, hheld, mem_of_held hheld⟩
  · exact h pre id post' rfl

end FarEnd

end Vento.Control
