import Mathlib.Data.List.AList
import Mathlib.Tactic.Common
/-!
# Keysyms to RustDesk's keys

`rustdesk/src/keymap.rs`: what a keysym is sent as, and which modifier it is.
-/

namespace Vento.Rustdesk.Keymap

/-- RustDesk's names for the keys that the keymap sends. -/
inductive ControlKey where
  | shift | rShift | control | rControl | alt | rAlt | meta_ | rWin | apps | capsLock | numLock | scroll
  | backspace | tab | return_ | escape | delete | insert | home | end_ | pageUp | pageDown
  | leftArrow | upArrow | rightArrow | downArrow | snapshot | pause | cancel
  | f1 | f2 | f3 | f4 | f5 | f6 | f7 | f8 | f9 | f10 | f11 | f12
  | numpad0 | numpad1 | numpad2 | numpad3 | numpad4 | numpad5 | numpad6 | numpad7 | numpad8 | numpad9
  | clear | multiply | add | separator | subtract | decimal | divide | numpadEnter
  | kana | convert
deriving DecidableEq, Repr

/-- What a keysym turns into on the wire. -/
inductive Key where
  | control (key : ControlKey)
  | char (c : Char)
deriving DecidableEq, Repr

/-- Which modifier a keysym is; both hands are one. -/
def modifier (keysym : UInt32) : Option ControlKey :=
  match keysym with
  | 0xffe1 | 0xffe2 => some .shift
  | 0xffe3 | 0xffe4 => some .control
  | 0xffe9 | 0xffea | 0xfe03 => some .alt
  | 0xffeb | 0xffec => some .meta_
  | _ => none

/-- Which modifier a named key is. -/
def modifierOf : ControlKey → Option ControlKey
  | .shift | .rShift => some .shift
  | .control | .rControl => some .control
  | .alt | .rAlt => some .alt
  | .meta_ | .rWin => some .meta_
  | _ => none

/-- The arms of `named`. -/
def namedKeys : List (UInt32 × ControlKey) := [
  (0xffe1, .shift), (0xffe2, .rShift), (0xffe3, .control), (0xffe4, .rControl), (0xffe9, .alt),
  -- Alt_R and ISO_Level3_Shift are both AltGr
  (0xffea, .rAlt), (0xfe03, .rAlt), (0xffeb, .meta_), (0xffec, .rWin), (0xff67, .apps), (0xffe5, .capsLock),
  (0xff7f, .numLock), (0xff14, .scroll),
  (0xff08, .backspace), (0xff09, .tab), (0xff0d, .return_), (0xff1b, .escape), (0xffff, .delete), (0xff63, .insert),
  (0xff50, .home), (0xff57, .end_), (0xff55, .pageUp), (0xff56, .pageDown), (0xff51, .leftArrow), (0xff52, .upArrow),
  (0xff53, .rightArrow), (0xff54, .downArrow), (0xff61, .snapshot), (0xff13, .pause), (0xff69, .cancel),
  (0xffbe, .f1), (0xffbf, .f2), (0xffc0, .f3), (0xffc1, .f4), (0xffc2, .f5), (0xffc3, .f6), (0xffc4, .f7),
  (0xffc5, .f8), (0xffc6, .f9), (0xffc7, .f10), (0xffc8, .f11), (0xffc9, .f12),
  (0xffb0, .numpad0), (0xffb1, .numpad1), (0xffb2, .numpad2), (0xffb3, .numpad3), (0xffb4, .numpad4),
  (0xffb5, .numpad5), (0xffb6, .numpad6), (0xffb7, .numpad7), (0xffb8, .numpad8), (0xffb9, .numpad9),
  (0xff95, .home), (0xff96, .leftArrow), (0xff97, .upArrow), (0xff98, .rightArrow), (0xff99, .downArrow),
  (0xff9a, .pageUp), (0xff9b, .pageDown), (0xff9c, .end_), (0xff9d, .clear), (0xff9e, .insert), (0xff9f, .delete),
  (0xffaa, .multiply), (0xffab, .add), (0xffac, .separator), (0xffad, .subtract), (0xffae, .decimal),
  (0xffaf, .divide), (0xff8d, .numpadEnter),
  (0xff27, .kana), (0xff23, .convert)]

def named (keysym : UInt32) : Option ControlKey := namedKeys.lookup keysym

/-- `char::from_u32`. -/
def fromU32 (n : UInt32) : Option Char := if h : n.isValidChar then some ⟨n, h⟩ else none

/-- Latin-1 by value, and the rest through the Unicode keysyms. -/
def character (keysym : UInt32) : Option Char :=
  if 0x20 ≤ keysym ∧ keysym ≤ 0x7e ∨ 0xa0 ≤ keysym ∧ keysym ≤ 0xff then fromU32 keysym
  else if 0x01000000 ≤ keysym ∧ keysym ≤ 0x0110ffff then fromU32 (keysym - 0x01000000)
  else none

/-- What to send for a keysym, or `none` for one that this protocol cannot send. -/
def key (keysym : UInt32) : Option Key :=
  match named keysym with
  | some named => some (.control named)
  | none => (character keysym).map .char

example : key 0x41 = some (.char 'A') ∧ key 0xffc7 = some (.control .f10) ∧ key 0xffca = none := by decide

namespace Key

/-- The modifier that a key is, whichever hand's. -/
def modifier : Key → Option ControlKey
  | .control key => modifierOf key
  | .char _ => none

end Key

/-- A modifier is its own. -/
theorem modifierOf_modifierOf {key m : ControlKey} (h : modifierOf key = some m) : modifierOf m = some m := by
  cases key <;> cases h <;> rfl

theorem modifier_namedKeys : ∀ p ∈ namedKeys, modifier p.1 = modifierOf p.2 := by decide

/-- The modifier that a press is recorded as is that of the key it sends. -/
theorem modifier_eq {keysym : UInt32} {k : Key} (h : key keysym = some k) : modifier keysym = k.modifier := by
  unfold key at h
  cases hn : named keysym with
  | some c =>
    rw [hn] at h
    cases h
    obtain ⟨before, after, htable, -⟩ := List.lookup_eq_some_iff.mp hn
    refine modifier_namedKeys (keysym, c) ?_
    rw [htable]
    simp
  | none =>
    rw [hn] at h
    obtain ⟨c, -, rfl⟩ := Option.map_eq_some_iff.mp h
    show modifier keysym = none
    -- every modifier is named
    unfold modifier
    split <;> first | rfl | cases hn

end Vento.Rustdesk.Keymap
