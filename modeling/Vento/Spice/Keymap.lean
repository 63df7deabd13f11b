import Vento.Lib.Held
/-!
# Keysyms to scancodes

`spice/src/keymap.rs`: the position a keysym has on a US keyboard, whether the layout needs
Shift for it, and the strokes the inputs channel is sent as keys go down and up.
-/

namespace Vento.Spice

open Vento.Lib

/-- What a keysym turns into on the wire. -/
inductive Key where
  | scancode (code : UInt16) (shift : Bool)
  | pause
deriving DecidableEq, Repr

def extended : UInt16 := 0x100

/-- The bytes a keyboard would put on the wire, least significant first. -/
def wire (code : UInt16) (release : Bool) : UInt32 :=
  let base := (code &&& 0xff).toUInt32 ||| (if release then 0x80 else 0)
  if code &&& extended ≠ 0 then (base <<< 8) ||| 0xe0 else base

namespace Key

def press : Key → UInt32
  | .scancode code _ => wire code false
  | .pause => 0x451de1

def release : Key → Option UInt32
  | .scancode code _ => some (wire code true)
  | .pause => none

/-- The layout needs Shift for the character. -/
def shifted : Key → Bool
  | .scancode _ shift => shift
  | .pause => false

end Key

def shift : Key := .scancode 0x2a false

def rightShift : Key := .scancode 0x36 false

inductive Stroke where
  | down (code : UInt32)
  | up (code : UInt32)
deriving DecidableEq, Repr

/-! ## The tables -/

def ext (code : UInt8) : UInt16 := extended ||| code.toUInt16

/-- The named keys that stand alone in the match. -/
def namedKeys : List (UInt32 × UInt16) := [
  (0xffe1, 0x2a), (0xffe2, 0x36), (0xffe3, 0x1d), (0xffe4, ext 0x1d), (0xffe9, 0x38), (0xffea, ext 0x38),
  (0xfe03, ext 0x38), (0xffeb, ext 0x5b), (0xffe7, ext 0x5b), (0xffec, ext 0x5c), (0xffe8, ext 0x5c),
  (0xff67, ext 0x5d), (0xffe5, 0x3a), (0xff7f, 0x45), (0xff14, 0x46),
  -- editing and navigation
  (0xff08, 0x0e), (0xff09, 0x0f), (0xff0d, 0x1c), (0xff1b, 0x01), (0xffff, ext 0x53), (0xff63, ext 0x52),
  (0xff50, ext 0x47), (0xff57, ext 0x4f), (0xff55, ext 0x49), (0xff56, ext 0x51), (0xff51, ext 0x4b),
  (0xff52, ext 0x48), (0xff53, ext 0x4d), (0xff54, ext 0x50), (0xff61, ext 0x37),
  -- F11, F12 and F24, which do not follow the others
  (0xffc8, 0x57), (0xffc9, 0x58), (0xffd5, 0x76),
  -- the keypad, under each Num Lock state
  (0xffb7, 0x47), (0xff95, 0x47), (0xffb8, 0x48), (0xff97, 0x48), (0xffb9, 0x49), (0xff9a, 0x49), (0xffb4, 0x4b),
  (0xff96, 0x4b), (0xffb5, 0x4c), (0xff9d, 0x4c), (0xffb6, 0x4d), (0xff98, 0x4d), (0xffb1, 0x4f), (0xff9c, 0x4f),
  (0xffb2, 0x50), (0xff99, 0x50), (0xffb3, 0x51), (0xff9b, 0x51), (0xffb0, 0x52), (0xff9e, 0x52), (0xffae, 0x53),
  (0xff9f, 0x53), (0xffaa, 0x37), (0xffad, 0x4a), (0xffab, 0x4e), (0xffaf, ext 0x35), (0xff8d, ext 0x1c),
  (0xffac, 0x7e),
  -- a Japanese keyboard's conversion keys
  (0xff27, 0x70), (0xff23, 0x79), (0xff22, 0x7b)]

def named (keysym : UInt32) : Option UInt16 :=
  if 0xffbe ≤ keysym ∧ keysym ≤ 0xffc7 then some (0x3b + (keysym - 0xffbe).toUInt16)
  else if 0xffca ≤ keysym ∧ keysym ≤ 0xffd4 then some (0x64 + (keysym - 0xffca).toUInt16)
  else namedKeys.lookup keysym

/-- A scancode, what it types and what it types with Shift. -/
def usLayout : List (UInt8 × Char × Char) := [
  (0x29, Char.ofNat 0x60, '~'), (0x02, '1', '!'), (0x03, '2', '@'), (0x04, '3', '#'), (0x05, '4', '$'),
  (0x06, '5', '%'), (0x07, '6', '^'), (0x08, '7', '&'), (0x09, '8', '*'), (0x0a, '9', '('), (0x0b, '0', ')'),
  (0x0c, '-', '_'), (0x0d, '=', '+'),
  (0x10, 'q', 'Q'), (0x11, 'w', 'W'), (0x12, 'e', 'E'), (0x13, 'r', 'R'), (0x14, 't', 'T'), (0x15, 'y', 'Y'),
  (0x16, 'u', 'U'), (0x17, 'i', 'I'), (0x18, 'o', 'O'), (0x19, 'p', 'P'), (0x1a, '[', Char.ofNat 0x7b),
  (0x1b, ']', Char.ofNat 0x7d), (0x2b, Char.ofNat 0x5c, '|'),
  (0x1e, 'a', 'A'), (0x1f, 's', 'S'), (0x20, 'd', 'D'), (0x21, 'f', 'F'), (0x22, 'g', 'G'), (0x23, 'h', 'H'),
  (0x24, 'j', 'J'), (0x25, 'k', 'K'), (0x26, 'l', 'L'), (0x27, ';', ':'), (0x28, Char.ofNat 0x27, Char.ofNat 0x22),
  (0x2c, 'z', 'Z'), (0x2d, 'x', 'X'), (0x2e, 'c', 'C'), (0x2f, 'v', 'V'), (0x30, 'b', 'B'), (0x31, 'n', 'N'),
  (0x32, 'm', 'M'), (0x33, ',', '<'), (0x34, '.', '>'), (0x35, '/', '?'), (0x39, ' ', ' ')]

/-- Latin-1 is itself, everything else is `0x01000000 | codepoint`. -/
def unicode (keysym : UInt32) : Option UInt32 :=
  if keysym &&& 0xff000000 = 0x01000000 then some (keysym &&& 0x00ffffff)
  else if (0x20 ≤ keysym ∧ keysym ≤ 0x7e) ∨ (0xa0 ≤ keysym ∧ keysym ≤ 0xff) then some keysym
  else none

/-- `char::from_u32`. -/
def fromU32 (n : UInt32) : Option Char := if h : n.isValidChar then some ⟨n, h⟩ else none

/-- The key of a row of the layout, if it types `ch`. -/
def placed (ch : Char) (row : UInt8 × Char × Char) : Option Key :=
  if ch = row.2.1 then some (.scancode row.1.toUInt16 false)
  else if ch = row.2.2 then some (.scancode row.1.toUInt16 true)
  else none

/-- What to send for a keysym, or `none` for one that this keyboard has no position for. -/
def scancode (keysym : UInt32) : Option Key :=
  if keysym = 0xff13 then some .pause
  else
    match named keysym with
    | some code => some (.scancode code false)
    | none => ((unicode keysym).bind fromU32).bind fun ch => usLayout.findSome? (placed ch)

/-! ## The keys held -/

/-- The keys held on the guest, by the caller's key id, and whether Shift was pressed for a
shifted character. -/
structure Keyboard where
  held : AList fun _ : Int64 => Key
  shiftAdded : Bool

namespace Keyboard

def shiftHeldByUser (s : Keyboard) : Bool := (values s.held).any fun k => k == shift || k == rightShift

/-- `key` went down under `id`; a second press of a held id is auto-repeat. -/
def down (s : Keyboard) (id : Int64) (key : Key) : Keyboard × List Stroke :=
  let again := (s.held.lookup id).isSome
  let s := { s with held := s.held.insert id key }
  if key.shifted && !again && !s.shiftAdded && !s.shiftHeldByUser then
    ({ s with shiftAdded := true }, [.down shift.press, .down key.press])
  else (s, [.down key.press])

/-- The key under `id` came up; nothing for an id that is not held. -/
def up (s : Keyboard) (id : Int64) : Keyboard × List Stroke :=
  match s.held.lookup id with
  | none => (s, [])
  | some key =>
    let s := { s with held := s.held.erase id }
    let out := key.release.toList.map .up
    if s.shiftAdded && !(values s.held).any Key.shifted then
      -- the added Shift is the left one, and a user who holds that keeps it
      ({ s with shiftAdded := false },
        if (values s.held).any (· == shift) then out else out ++ shift.release.toList.map .up)
    else (s, out)

/-- Everything still held comes up, in the order the map is drained in. -/
def releaseAll (s : Keyboard) (order : List Key) : Keyboard × List Stroke :=
  (⟨∅, false⟩, order.filterMap (fun key => key.release.map .up) ++
    if s.shiftAdded then shift.release.toList.map .up else [])

end Keyboard

/-! ## The keys of the keymap -/

/-- A code of a keyboard: seven bits under the `E0` one, and none whose break code is that. -/
def isCode (code : UInt16) : Bool := (code < 0x80 && code != 0x60) || (0x100 ≤ code && code < 0x180)

/-- Neither Shift is a shifted character. -/
def Key.known : Key → Bool
  | .scancode code sh => isCode code && (!sh || (code != 0x2a && code != 0x36))
  | .pause => true

theorem namedKeys_known : (namedKeys.all fun p => (Key.scancode p.2 false).known) = true := by decide +kernel

theorem usLayout_known :
    (usLayout.all fun row => (Key.scancode row.1.toUInt16 false).known && (Key.scancode row.1.toUInt16 true).known) = true := by
  decide +kernel

/-- The function keys run on from their first one. -/
theorem run_known (first : UInt16) {n : Nat} (hn : n ≤ 11) (h : ∀ i : Fin 11, isCode (first + UInt16.ofNat i) = true)
    {x : UInt32} (hx : x.toNat < n) : (Key.scancode (first + x.toUInt16) false).known = true := by
  have h1 := h ⟨x.toNat, by omega⟩
  have h2 : UInt16.ofNat x.toNat = x.toUInt16 := by simp
  simp only [h2] at h1
  simp [Key.known, h1]

theorem named_known {keysym : UInt32} {code : UInt16} (h : named keysym = some code) :
    (Key.scancode code false).known = true := by
  unfold named at h
  split at h
  · rename_i hk
    cases h
    refine run_known (n := 10) 0x3b (by omega) (by decide) ?_
    have h1 := UInt32.le_iff_toNat_le.mp hk.1
    have h2 := UInt32.le_iff_toNat_le.mp hk.2
    rw [UInt32.toNat_sub_of_le _ _ hk.1]
    simp at h1 h2 ⊢
    omega
  · split at h
    · rename_i hk
      cases h
      refine run_known (n := 11) 0x64 (by omega) (by decide) ?_
      have h1 := UInt32.le_iff_toNat_le.mp hk.1
      have h2 := UInt32.le_iff_toNat_le.mp hk.2
      rw [UInt32.toNat_sub_of_le _ _ hk.1]
      simp at h1 h2 ⊢
      omega
    · obtain ⟨l₁, l₂, hl, -⟩ := List.lookup_eq_some_iff.mp h
      exact List.all_eq_true.mp namedKeys_known (keysym, code) (by rw [hl]; simp)

theorem scancode_known {keysym : UInt32} {key : Key} (h : scancode keysym = some key) : key.known = true := by
  unfold scancode at h
  split at h
  · cases h
    rfl
  · split at h
    · rename_i hn
      cases h
      exact named_known hn
    · obtain ⟨ch, -, hch⟩ := Option.bind_eq_some_iff.mp h
      obtain ⟨row, hrow, hp⟩ := List.exists_of_findSome?_eq_some hch
      obtain ⟨hplain, hshifted⟩ := Bool.and_eq_true_iff.mp (List.all_eq_true.mp usLayout_known row hrow)
      unfold placed at hp
      split at hp
      · cases hp
        exact hplain
      · split at hp
        · cases hp
          exact hshifted
        · cases hp

end Vento.Spice
