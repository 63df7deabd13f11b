import Vento.Spice.Keymap
/-!
# Keysyms to RDP's keys

`ironrdp/src/keymap.rs`: the position a keysym has on a US keyboard and whether the layout needs
Shift for it, or the character it is sent as.
-/

namespace Vento.Ironrdp

/-- `ironrdp_input::Scancode`: a position, with the `E0` prefix or without. -/
structure Scancode where
  extended : Bool
  code : UInt8
deriving DecidableEq, Repr

/-- What a keysym turns into on the wire. -/
inductive Key where
  | scancode (code : Scancode) (shift : Bool)
  | unicode (ch : Char)
  | pause
deriving DecidableEq, Repr

def ext (code : UInt8) : Scancode := ⟨true, code⟩

def plain (code : UInt8) : Scancode := ⟨false, code⟩

def shift : Scancode := plain 0x2a

def rightShift : Scancode := plain 0x36

/-- The named keys that stand alone in the match. -/
def namedKeys : List (UInt32 × Scancode) := [
  (0xffe1, shift), (0xffe2, rightShift), (0xffe3, plain 0x1d), (0xffe4, ext 0x1d), (0xffe9, plain 0x38),
  (0xffea, ext 0x38), (0xfe03, ext 0x38), (0xffeb, ext 0x5b), (0xffe7, ext 0x5b), (0xffec, ext 0x5c),
  (0xffe8, ext 0x5c), (0xff67, ext 0x5d), (0xffe5, plain 0x3a), (0xff7f, plain 0x45), (0xff14, plain 0x46),
  -- editing and navigation
  (0xff08, plain 0x0e), (0xff09, plain 0x0f), (0xff0d, plain 0x1c), (0xff1b, plain 0x01), (0xffff, ext 0x53),
  (0xff63, ext 0x52), (0xff50, ext 0x47), (0xff57, ext 0x4f), (0xff55, ext 0x49), (0xff56, ext 0x51),
  (0xff51, ext 0x4b), (0xff52, ext 0x48), (0xff53, ext 0x4d), (0xff54, ext 0x50), (0xff61, ext 0x37),
  -- F11, F12 and F24, which do not follow the others
  (0xffc8, plain 0x57), (0xffc9, plain 0x58), (0xffd5, plain 0x76),
  -- the keypad, under each Num Lock state
  (0xffb7, plain 0x47), (0xff95, plain 0x47), (0xffb8, plain 0x48), (0xff97, plain 0x48), (0xffb9, plain 0x49),
  (0xff9a, plain 0x49), (0xffb4, plain 0x4b), (0xff96, plain 0x4b), (0xffb5, plain 0x4c), (0xff9d, plain 0x4c),
  (0xffb6, plain 0x4d), (0xff98, plain 0x4d), (0xffb1, plain 0x4f), (0xff9c, plain 0x4f), (0xffb2, plain 0x50),
  (0xff99, plain 0x50), (0xffb3, plain 0x51), (0xff9b, plain 0x51), (0xffb0, plain 0x52), (0xff9e, plain 0x52),
  (0xffae, plain 0x53), (0xff9f, plain 0x53), (0xffaa, plain 0x37), (0xffad, plain 0x4a), (0xffab, plain 0x4e),
  (0xffaf, ext 0x35), (0xff8d, ext 0x1c), (0xffac, plain 0x7e),
  -- a Japanese keyboard's conversion keys
  (0xff27, plain 0x70), (0xff23, plain 0x79), (0xff22, plain 0x7b)]

def named (keysym : UInt32) : Option Scancode :=
  if 0xffbe ≤ keysym ∧ keysym ≤ 0xffc7 then some (plain (0x3b + (keysym - 0xffbe).toUInt8))
  else if 0xffca ≤ keysym ∧ keysym ≤ 0xffd4 then some (plain (0x64 + (keysym - 0xffca).toUInt8))
  else namedKeys.lookup keysym

/-- A scancode, what it types and what it types with Shift: the rows that SPICE's keymap has too. -/
def usLayout : List (UInt8 × Char × Char) := Spice.usLayout

/-- Latin-1 is itself, everything else is `0x01000000 | codepoint`, as SPICE's keymap reads it. -/
def unicode (keysym : UInt32) : Option UInt32 := Spice.unicode keysym

/-- The key of a row of the layout, if it types `ch`. -/
def placed (ch : Char) (row : UInt8 × Char × Char) : Option Key :=
  if ch = row.2.1 then some (.scancode (plain row.1) false)
  else if ch = row.2.2 then some (.scancode (plain row.1) true)
  else none

/-- What to send for a keysym, or `none` for one with no mapping. -/
def scancode (keysym : UInt32) : Option Key :=
  if keysym = 0xff13 then some .pause
  else
    match named keysym with
    | some code => some (.scancode code false)
    | none =>
      -- the keypad's equals sign has no position
      if keysym = 0xffbd then some (.unicode '=')
      else ((unicode keysym).bind Spice.fromU32).map fun ch => (usLayout.findSome? (placed ch)).getD (.unicode ch)

example : scancode 0x41 = some (.scancode (plain 0x1e) true) ∧ scancode 0xe9 = some (.unicode 'é') ∧
    scancode 0xff22 = some (.scancode (plain 0x7b) false) := by decide

end Vento.Ironrdp
