import Vento.Lib.Runs
import Vento.Spice.Keymap
/-!
# What the guest holds

The strokes of `Keyboard` as the guest hears them: a make code goes down, its break code takes it
up again, and the burst for Pause leaves nothing down.

`keyboard_spec`: a guest that is told of every key's end holds nothing, provided that no held id is
pressed again in another place; and a character that needs Shift arrives with one down, provided
that no Shift comes up which something else holds too. A character without Shift is sent as it is.
-/

namespace Vento.Spice

open Vento.Lib

/-- The make code that a break code ends: the same with bit 7 of its last byte clear. -/
def makeOf (code : UInt32) : UInt32 := if code &&& 0xff = 0xe0 then code &&& 0xffff7fff else code &&& 0xffffff7f

/-- What is down after a stroke. The `E1` burst carries its own release. -/
def hears (down : List UInt32) : Stroke → List UInt32
  | .down code => if code &&& 0xff = 0xe1 then down else code :: down
  | .up code => down.filter (· ≠ makeOf code)

def guest (sent : List Stroke) : List UInt32 := sent.foldl hears []

/-- Either Shift is down. -/
def shiftDown (down : List UInt32) : Bool := down.contains 0x2a || down.contains 0x36

/-- A call of the client's: a `drain` visits the map in no particular order, so a
`releaseAllKeys` comes with the one it happened to take. -/
inductive KeyOp where
  | keyDown (keysym : UInt32) (id : Int64)
  | keyUp (id : Int64)
  | releaseAllKeys (order : List Key)
deriving DecidableEq, Repr

/-- The keyboard, and the strokes sent so far. -/
structure Inputs where
  keyboard : Keyboard
  sent : List Stroke

namespace Inputs

def start : Inputs := ⟨⟨∅, false⟩, []⟩

def sends (s : Inputs) (r : Keyboard × List Stroke) : Inputs := ⟨r.1, s.sent ++ r.2⟩

/-- A keysym that has no position is dropped. -/
def keyDown (s : Inputs) (keysym : UInt32) (id : Int64) : Inputs :=
  match scancode keysym with
  | none => s
  | some key => s.sends (s.keyboard.down id key)

def keyUp (s : Inputs) (id : Int64) : Inputs := s.sends (s.keyboard.up id)

def step (s : Inputs) : KeyOp → Option Inputs
  | .keyDown keysym id => some (s.keyDown keysym id)
  | .keyUp id => some (s.keyUp id)
  | .releaseAllKeys order =>
    if order.Perm (values s.keyboard.held) then some (s.sends (s.keyboard.releaseAll order)) else none

end Inputs

open Inputs

def typed (ops : List KeyOp) : Option Inputs := run step start ops

/-! ## The codes -/

/-- The code that is down at the guest while the key is. -/
def Key.position : Key → Option UInt32
  | .scancode code _ => some (wire code false)
  | .pause => none

/-- What holds of every code is a matter of 256 numbers. -/
theorem forall_code {P : UInt16 → Prop}
    (h : ∀ n : Fin 128, (n.val ≠ 0x60 → P (UInt16.ofNat n)) ∧ P (0x100 + UInt16.ofNat n)) {code : UInt16}
    (hc : isCode code = true) : P code := by
  simp only [isCode, Bool.or_eq_true, Bool.and_eq_true, decide_eq_true_eq, bne_iff_ne] at hc
  rcases hc with ⟨hc, hne⟩ | ⟨h1, h2⟩
  · have hn : code.toNat < 128 := UInt16.lt_iff_toNat_lt.mp hc
    have := (h ⟨code.toNat, hn⟩).1 fun he => hne (UInt16.toNat_inj.mp he)
    simpa using this
  · have h1' : 256 ≤ code.toNat := UInt16.le_iff_toNat_le.mp h1
    have h2' : code.toNat < 384 := UInt16.lt_iff_toNat_lt.mp h2
    have hc : 0x100 + UInt16.ofNat (code.toNat - 256) = code := by
      apply UInt16.toNat_inj.mp
      rw [UInt16.toNat_add]
      simp
      omega
    have := (h ⟨code.toNat - 256, by omega⟩).2
    rwa [hc] at this

theorem Key.known_iff {code : UInt16} {sh : Bool} :
    (Key.scancode code sh).known = true ↔
      isCode code = true ∧ (sh = false ∨ code ≠ 0x2a ∧ code ≠ 0x36) := by
  simp [Key.known]

theorem makeOf_wire {code : UInt16} (hc : isCode code = true) :
    makeOf (wire code true) = wire code false :=
  forall_code (P := fun code => makeOf (wire code true) = wire code false) (by decide +kernel) hc

theorem wire_first {code : UInt16} (hc : isCode code = true) : wire code false &&& 0xff ≠ 0xe1 :=
  forall_code (P := fun code => wire code false &&& 0xff ≠ 0xe1) (by decide +kernel) hc

theorem wire_shift {code : UInt16} (hc : isCode code = true) :
    (wire code false = 0x2a → code = 0x2a) ∧ (wire code false = 0x36 → code = 0x36) :=
  forall_code (P := fun code => (wire code false = 0x2a → code = 0x2a) ∧ (wire code false = 0x36 → code = 0x36))
    (by decide +kernel) hc

theorem eq_shift_of_position {key : Key} (hk : key.known = true) (hp : key.position = some 0x2a) : key = shift := by
  cases key with
  | pause => cases hp
  | scancode code sh =>
    obtain ⟨hc, hs⟩ := Key.known_iff.mp hk
    have hcode := (wire_shift hc).1 (Option.some.inj hp)
    rcases hs with rfl | ⟨hs, -⟩
    · rw [hcode]
      rfl
    · exact absurd hcode hs

theorem eq_rightShift_of_position {key : Key} (hk : key.known = true) (hp : key.position = some 0x36) :
    key = rightShift := by
  cases key with
  | pause => cases hp
  | scancode code sh =>
    obtain ⟨hc, hs⟩ := Key.known_iff.mp hk
    have hcode := (wire_shift hc).2 (Option.some.inj hp)
    rcases hs with rfl | ⟨-, hs⟩
    · rw [hcode]
      rfl
    · exact absurd hcode hs

/-! ## What a stroke does -/

section
variable {sent : List Stroke} {key : Key} {w : UInt32}

theorem guest_append (sent out : List Stroke) : guest (sent ++ out) = out.foldl hears (guest sent) := by
  simp [guest]

theorem mem_guest_press (hk : key.known = true) :
    w ∈ guest (sent ++ [.down key.press]) ↔ key.position = some w ∨ w ∈ guest sent := by
  rw [guest_append]
  cases key with
  | pause => simp [Key.press, Key.position, show ∀ g, hears g (.down 0x451de1) = g from fun _ => rfl]
  | scancode code sh =>
    have hf := wire_first (Key.known_iff.mp hk).1
    simp [hears, Key.press, Key.position, hf, eq_comm]

theorem mem_guest_release (hk : key.known = true) :
    w ∈ guest (sent ++ key.release.toList.map .up) ↔ w ∈ guest sent ∧ key.position ≠ some w := by
  rw [guest_append]
  cases key with
  | pause => simp [Key.release, Key.position]
  | scancode code sh =>
    have hm := makeOf_wire (Key.known_iff.mp hk).1
    simp only [Key.release, Key.position, Option.toList_some, List.map_cons, List.map_nil, List.foldl_cons,
      List.foldl_nil, hears, hm, List.mem_filter, decide_eq_true_eq, ne_eq, Option.some.injEq]
    rw [eq_comm (a := w)]

theorem mem_guest_releases {keys : List Key} (hk : ∀ key ∈ keys, key.known = true) :
    w ∈ guest (sent ++ keys.filterMap fun key => key.release.map .up) ↔
      w ∈ guest sent ∧ ∀ key ∈ keys, key.position ≠ some w := by
  induction keys generalizing sent with
  | nil => simp
  | cons key keys ih =>
    have hsplit : (key :: keys).filterMap (fun key => key.release.map Stroke.up) =
        key.release.toList.map .up ++ keys.filterMap fun key => key.release.map .up := by
      cases h : key.release <;> simp [h]
    rw [hsplit, ← List.append_assoc, ih fun key' h => hk key' (List.mem_cons_of_mem key h),
      mem_guest_release (hk key List.mem_cons_self), and_assoc, List.forall_mem_cons]

theorem shift_known : shift.known = true := rfl

theorem shift_position : shift.position = some 0x2a := rfl

theorem rightShift_position : rightShift.position = some 0x36 := rfl

theorem shiftDown_iff {down : List UInt32} : shiftDown down = true ↔ 0x2a ∈ down ∨ 0x36 ∈ down := by
  simp [shiftDown]

end

/-! ## What a call does -/

namespace Keyboard

variable {s : Keyboard} {id : Int64} {key : Key}

/-- A press is its make code, after a Shift where the character needs one, is no repeat, and
neither this client nor the user holds one. -/
theorem down_cases (s : Keyboard) (id : Int64) (key : Key) :
    (s.down id key = (⟨s.held.insert id key, true⟩, [.down shift.press, .down key.press]) ∧ key.shifted = true) ∨
      (s.down id key = (⟨s.held.insert id key, s.shiftAdded⟩, [.down key.press]) ∧
        (key.shifted = true → s.held.lookup id = none → s.shiftAdded = true ∨
          shift ∈ values (s.held.insert id key) ∨ rightShift ∈ values (s.held.insert id key))) := by
  unfold down
  dsimp only
  split
  · rename_i h
    simp only [Bool.and_eq_true] at h
    exact Or.inl ⟨rfl, h.1.1.1⟩
  · rename_i h
    refine Or.inr ⟨rfl, ?_⟩
    intro hsh hnone
    by_contra hn
    simp only [not_or] at hn
    apply h
    simp only [Bool.and_eq_true, hsh, hnone, shiftHeldByUser, Bool.not_eq_true', List.any_eq_false, true_and]
    refine ⟨⟨rfl, by simpa using hn.1⟩, ?_⟩
    intro k hk hks
    rcases Bool.or_eq_true _ _ ▸ hks with he | he
    · exact hn.2.1 ((beq_iff_eq.mp he) ▸ hk)
    · exact hn.2.2 ((beq_iff_eq.mp he) ▸ hk)

/-- A release is its break code, and the added Shift's once no shifted key is held, unless the
user holds that one. -/
theorem up_cases (h : s.held.lookup id = some key) :
    (s.up id = (⟨s.held.erase id, false⟩, key.release.toList.map .up) ∧ shift ∈ values (s.held.erase id)) ∨
      (s.up id = (⟨s.held.erase id, false⟩, key.release.toList.map .up ++ shift.release.toList.map .up) ∧
        shift ∉ values (s.held.erase id)) ∨
      (s.up id = (⟨s.held.erase id, s.shiftAdded⟩, key.release.toList.map .up) ∧
        (s.shiftAdded = true → ∃ k ∈ values (s.held.erase id), k.shifted = true)) := by
  unfold up
  rw [h]
  dsimp only
  split
  · by_cases hs : shift ∈ values (s.held.erase id)
    · refine Or.inl ⟨?_, hs⟩
      have : (values (s.held.erase id)).any (· == shift) = true := List.any_eq_true.mpr ⟨shift, hs, beq_self_eq_true _⟩
      rw [this]
      rfl
    · refine Or.inr (Or.inl ⟨?_, hs⟩)
      have : (values (s.held.erase id)).any (· == shift) = false := by
        rw [List.any_eq_false]
        intro k hk he
        exact hs (beq_iff_eq.mp he ▸ hk)
      rw [this]
      rfl
  · rename_i hc
    refine Or.inr (Or.inr ⟨rfl, ?_⟩)
    intro ha
    by_contra hn
    apply hc
    rw [ha, Bool.true_and, Bool.not_eq_true', List.any_eq_false]
    intro k hk hks
    exact hn ⟨k, hk, hks⟩

theorem up_none (h : s.held.lookup id = none) : s.up id = (s, []) := by
  unfold up
  rw [h]

end Keyboard

/-! ## What is asked of a run -/

/-- Every id that went down has come up since, or everything has. -/
def AllReleased (ops : List KeyOp) : Prop :=
  ∀ pre keysym id post, ops = pre ++ .keyDown keysym id :: post →
    .keyUp id ∈ post ∨ ∃ order, .releaseAllKeys order ∈ post

def NothingStuck (ops : List KeyOp) : Prop :=
  ∀ pre post s, ops = pre ++ post → typed pre = some s → AllReleased pre → guest s.sent = []

/-- The guest's Left Shift is down only for the user who holds it, or as the added one while there
is a key whose release can end it. -/
def ShiftReleased (ops : List KeyOp) : Prop :=
  ∀ pre post s, ops = pre ++ post → typed pre = some s → 0x2a ∈ guest s.sent →
    shift ∈ values s.keyboard.held ∨ (s.keyboard.shiftAdded = true ∧ values s.keyboard.held ≠ [])

/-- Whether the layout types a character with Shift or without, for a character it types only one
way; a named key and the space bar are the same with both. -/
def needsShift (keysym : UInt32) : Option Bool :=
  match scancode keysym with
  | some (.scancode code sh) => if (named keysym).isSome || code == 0x39 then none else some sh
  | _ => none

/-- A press of such a character, not a repeat, finds the guest's Shift as it needs it when its make
code arrives. -/
def ArrivesWith (need : Bool) (ops : List KeyOp) : Prop :=
  ∀ pre keysym id post s, ops = pre ++ .keyDown keysym id :: post → typed pre = some s →
    s.keyboard.held.lookup id = none → needsShift keysym = some need →
      ∃ key out, scancode keysym = some key ∧ (s.keyboard.down id key).2 = out ++ [.down key.press] ∧
        shiftDown (guest (s.sent ++ out)) = need

/-- A held id is pressed again only in the position it has, or while another id holds that. -/
def Kept (s : Inputs) : KeyOp → Prop
  | .keyDown keysym id => ∀ key ∈ scancode keysym, ∀ old ∈ s.keyboard.held.lookup id,
      old.position = none ∨ old.position = key.position ∨
        ∃ e ∈ s.keyboard.held.entries, e.1 ≠ id ∧ e.2.position = old.position
  | _ => True

/-- A Shift comes up only where nothing else holds it: no other id, and the left one not as the
added Shift. -/
def ShiftOnce (s : Inputs) : KeyOp → Prop
  | .keyUp id => ∀ key ∈ s.keyboard.held.lookup id, key = shift ∨ key = rightShift →
      (∀ e ∈ s.keyboard.held.entries, e.1 ≠ id → e.2 ≠ key) ∧ (key = shift → s.keyboard.shiftAdded = false)
  | _ => True

instance (s : Inputs) : DecidablePred (Kept s)
  | .keyDown _ id =>
    have (key : Key) : Decidable (∀ old ∈ s.keyboard.held.lookup id, old.position = none ∨
        old.position = key.position ∨ ∃ e ∈ s.keyboard.held.entries, e.1 ≠ id ∧ e.2.position = old.position) :=
      Option.decidableForallMem _
    Option.decidableForallMem _
  | .keyUp _ => inferInstanceAs (Decidable True)
  | .releaseAllKeys _ => inferInstanceAs (Decidable True)

instance (s : Inputs) : DecidablePred (ShiftOnce s)
  | .keyUp id =>
    have (key : Key) : Decidable (∀ e ∈ s.keyboard.held.entries, e.1 ≠ id → e.2 ≠ key) := List.decidableBAll _ _
    Option.decidableForallMem _
  | .keyDown _ _ => inferInstanceAs (Decidable True)
  | .releaseAllKeys _ => inferInstanceAs (Decidable True)

/-! ## Nothing is stuck -/

/-- What the guest holds is what an id holds, or the added Shift. -/
structure Accounted (s : Inputs) : Prop where
  known : ∀ k ∈ values s.keyboard.held, k.known = true
  held : ∀ w ∈ guest s.sent,
    (∃ k ∈ values s.keyboard.held, k.position = some w) ∨ (w = 0x2a ∧ s.keyboard.shiftAdded = true)
  added : s.keyboard.shiftAdded = true → values s.keyboard.held ≠ []

section
variable {s s' : Inputs} {keysym : UInt32} {id : Int64} {key : Key}

theorem known_insert (hk : ∀ k ∈ values s.keyboard.held, k.known = true) (hkey : key.known = true) :
    ∀ k ∈ values (s.keyboard.held.insert id key), k.known = true := by
  intro k h
  rcases mem_values_insert.mp h with rfl | ⟨i, -, hi⟩
  · exact hkey
  · exact hk k (mem_values.mpr ⟨i, hi⟩)

theorem known_erase (hk : ∀ k ∈ values s.keyboard.held, k.known = true) :
    ∀ k ∈ values (s.keyboard.held.erase id), k.known = true :=
  fun k h => hk k (mem_values_of_erase h)

theorem insert_ne_nil (m : AList fun _ : Int64 => Key) (id : Int64) (key : Key) : values (m.insert id key) ≠ [] :=
  List.ne_nil_of_mem (mem_values_insert.mpr (Or.inl rfl))

/-- A position that is held is held still after a press that keeps its id's. -/
theorem position_insert (hc : Kept s (.keyDown keysym id)) (hkey : scancode keysym = some key) {k : Key} {w : UInt32}
    (hk : k ∈ values s.keyboard.held) (hp : k.position = some w) :
    ∃ k' ∈ values (s.keyboard.held.insert id key), k'.position = some w := by
  obtain ⟨i, hi⟩ := mem_values.mp hk
  by_cases hid : i = id
  · subst hid
    rcases hc key hkey k hi with hn | he | ⟨e, he, hne, hpos⟩
    · rw [hn] at hp
      cases hp
    · exact ⟨key, mem_values_insert.mpr (Or.inl rfl), he ▸ hp⟩
    · exact ⟨e.2, mem_values_insert.mpr (Or.inr ⟨e.1, hne, AList.mem_lookup_iff.mpr he⟩), hpos.trans hp⟩
  · exact ⟨k, mem_values_insert.mpr (Or.inr ⟨i, hid, hi⟩), hp⟩

theorem Accounted.keyDown (h : Accounted s) (hc : Kept s (.keyDown keysym id)) : Accounted (s.keyDown keysym id) := by
  unfold Inputs.keyDown
  cases hkey : scancode keysym with
  | none => exact h
  | some key =>
    have hknown := scancode_known hkey
    have hself : key ∈ values (s.keyboard.held.insert id key) := mem_values_insert.mpr (Or.inl rfl)
    rcases s.keyboard.down_cases id key with ⟨he, -⟩ | ⟨he, -⟩
    · simp only [Inputs.sends, he]
      refine ⟨known_insert h.known hknown, ?_, fun _ => insert_ne_nil _ _ _⟩
      intro w hw
      rw [List.append_cons, mem_guest_press hknown, mem_guest_press shift_known, shift_position] at hw
      rcases hw with hw | hw | hw
      · exact Or.inl ⟨key, hself, hw⟩
      · exact Or.inr ⟨(Option.some.inj hw).symm, rfl⟩
      · rcases h.held w hw with ⟨k, hk, hp⟩ | ⟨rfl, -⟩
        · exact Or.inl (position_insert hc hkey hk hp)
        · exact Or.inr ⟨rfl, rfl⟩
    · simp only [Inputs.sends, he]
      refine ⟨known_insert h.known hknown, ?_, fun _ => insert_ne_nil _ _ _⟩
      intro w hw
      rw [mem_guest_press hknown] at hw
      rcases hw with hw | hw
      · exact Or.inl ⟨key, hself, hw⟩
      · rcases h.held w hw with ⟨k, hk, hp⟩ | ⟨rfl, ha⟩
        · exact Or.inl (position_insert hc hkey hk hp)
        · exact Or.inr ⟨rfl, ha⟩

/-- A position that is held is held still after the release of a key that has another. -/
theorem position_erase {k : Key} {w : UInt32} (hl : s.keyboard.held.lookup id = some key)
    (hk : k ∈ values s.keyboard.held) (hp : k.position = some w) (hne : key.position ≠ some w) :
    k ∈ values (s.keyboard.held.erase id) := by
  refine mem_values_erase_of_ne hl hk ?_
  rintro rfl
  exact hne hp

theorem Accounted.keyUp (h : Accounted s) : Accounted (s.keyUp id) := by
  unfold Inputs.keyUp
  cases hl : s.keyboard.held.lookup id with
  | none =>
    rw [s.keyboard.up_none hl]
    simpa [Inputs.sends] using h
  | some key =>
    have hknown := h.known key (mem_values.mpr ⟨id, hl⟩)
    rcases s.keyboard.up_cases hl with ⟨he, hs⟩ | ⟨he, hs⟩ | ⟨he, ha⟩
    · simp only [Inputs.sends, he]
      refine ⟨known_erase h.known, ?_, nofun⟩
      intro w hw
      obtain ⟨hw, hne⟩ := (mem_guest_release hknown).mp hw
      rcases h.held w hw with ⟨k, hk, hp⟩ | ⟨rfl, -⟩
      · exact Or.inl ⟨k, position_erase hl hk hp hne, hp⟩
      · exact Or.inl ⟨shift, hs, rfl⟩
    · simp only [Inputs.sends, he]
      refine ⟨known_erase h.known, ?_, nofun⟩
      intro w hw
      rw [← List.append_assoc, mem_guest_release shift_known, mem_guest_release hknown] at hw
      obtain ⟨⟨hw, hne⟩, hns⟩ := hw
      rcases h.held w hw with ⟨k, hk, hp⟩ | ⟨rfl, -⟩
      · exact Or.inl ⟨k, position_erase hl hk hp hne, hp⟩
      · exact absurd rfl hns
    · simp only [Inputs.sends, he]
      refine ⟨known_erase h.known, ?_, ?_⟩
      · intro w hw
        obtain ⟨hw, hne⟩ := (mem_guest_release hknown).mp hw
        rcases h.held w hw with ⟨k, hk, hp⟩ | ⟨rfl, ha⟩
        · exact Or.inl ⟨k, position_erase hl hk hp hne, hp⟩
        · exact Or.inr ⟨rfl, ha⟩
      · intro hadded
        obtain ⟨k, hk, -⟩ := ha hadded
        exact List.ne_nil_of_mem hk

/-- Releasing everything leaves nothing down, the added Shift included. -/
theorem Accounted.releaseAll (h : Accounted s) {order : List Key} (ho : order.Perm (values s.keyboard.held)) :
    guest (s.sends (s.keyboard.releaseAll order)).sent = [] := by
  have hknown : ∀ k ∈ order, k.known = true := fun k hk => h.known k (ho.mem_iff.mp hk)
  rw [List.eq_nil_iff_forall_not_mem]
  intro w hw
  simp only [Inputs.sends, Keyboard.releaseAll, ← List.append_assoc] at hw
  cases ha : s.keyboard.shiftAdded with
  | true =>
    rw [ha, if_pos rfl, mem_guest_release shift_known, mem_guest_releases hknown] at hw
    obtain ⟨⟨hw, hne⟩, hns⟩ := hw
    rcases h.held w hw with ⟨k, hk, hp⟩ | ⟨rfl, -⟩
    · exact hne k (ho.mem_iff.mpr hk) hp
    · exact hns rfl
  | false =>
    rw [ha, if_neg nofun, List.append_nil, mem_guest_releases hknown] at hw
    obtain ⟨hw, hne⟩ := hw
    rcases h.held w hw with ⟨k, hk, hp⟩ | ⟨-, ha'⟩
    · exact hne k (ho.mem_iff.mpr hk) hp
    · rw [ha] at ha'
      cases ha'

theorem Accounted.step (h : Accounted s) {op : KeyOp} (hc : Kept s op) (hs : step s op = some s') : Accounted s' := by
  cases op with
  | keyDown keysym id =>
    cases hs
    exact h.keyDown hc
  | keyUp id =>
    cases hs
    exact h.keyUp
  | releaseAllKeys order =>
    unfold Inputs.step at hs
    dsimp only at hs
    split at hs
    · rename_i ho
      cases hs
      refine ⟨nofun, ?_, nofun⟩
      rw [h.releaseAll ho]
      nofun
    · cases hs

theorem accounted_start : Accounted start := ⟨nofun, nofun, nofun⟩

end

/-- Id `id` went down and has not come up since. -/
def DownSince (ops : List KeyOp) (id : Int64) : Prop :=
  ∃ pre keysym post, ops = pre ++ .keyDown keysym id :: post ∧ .keyUp id ∉ post ∧
    ∀ order, .releaseAllKeys order ∉ post

theorem DownSince.snoc {ops : List KeyOp} {op : KeyOp} {id : Int64} (h : DownSince ops id) (hu : op ≠ .keyUp id)
    (hr : ∀ order, op ≠ .releaseAllKeys order) : DownSince (ops ++ [op]) id := by
  obtain ⟨pre, keysym, post, rfl, hup, hall⟩ := h
  refine ⟨pre, keysym, post ++ [op], by simp, ?_, ?_⟩
  · simp only [List.mem_append, List.mem_singleton, not_or]
    exact ⟨hup, fun he => hu he.symm⟩
  · intro order
    simp only [List.mem_append, List.mem_singleton, not_or]
    exact ⟨hall order, fun he => hr order he.symm⟩

theorem DownSince.not_allReleased {ops : List KeyOp} {id : Int64} (h : DownSince ops id) : ¬AllReleased ops := by
  obtain ⟨pre, keysym, post, heq, hup, hall⟩ := h
  intro hr
  rcases hr pre keysym id post heq with h' | ⟨order, h'⟩
  · exact hup h'
  · exact hall order h'

section
variable {s : Inputs} {id i : Int64} {key : Key}

theorem lookup_keyDown {keysym : UInt32} (h : (s.keyDown keysym id).keyboard.held.lookup i = some key) :
    i = id ∨ s.keyboard.held.lookup i = some key := by
  unfold Inputs.keyDown at h
  by_cases hi : i = id
  · exact Or.inl hi
  · refine Or.inr ?_
    split at h
    · exact h
    · rename_i key' _
      have hheld : (s.keyboard.down id key').1.held = s.keyboard.held.insert id key' := by
        rcases s.keyboard.down_cases id key' with ⟨he, -⟩ | ⟨he, -⟩ <;> rw [he]
      simpa [Inputs.sends, hheld, AList.lookup_insert_ne hi] using h

theorem lookup_keyUp (h : (s.keyUp id).keyboard.held.lookup i = some key) :
    i ≠ id ∧ s.keyboard.held.lookup i = some key := by
  unfold Inputs.keyUp at h
  cases hl : s.keyboard.held.lookup id with
  | none =>
    rw [s.keyboard.up_none hl] at h
    refine ⟨?_, h⟩
    rintro rfl
    rw [show s.keyboard.held.lookup i = some key from h] at hl
    cases hl
  | some key' =>
    have hheld : (s.keyboard.up id).1.held = s.keyboard.held.erase id := by
      rcases s.keyboard.up_cases hl with ⟨he, -⟩ | ⟨he, -⟩ | ⟨he, -⟩ <;> rw [he]
    have h' : (s.keyboard.held.erase id).lookup i = some key := hheld ▸ h
    by_cases hi : i = id
    · subst hi
      rw [AList.lookup_erase] at h'
      cases h'
    · rw [AList.lookup_erase_ne hi] at h'
      exact ⟨hi, h'⟩

end

/-- What the map holds is down since. -/
theorem lookup_downSince {ops : List KeyOp} {s : Inputs} (hr : typed ops = some s) {id : Int64} {key : Key}
    (h : s.keyboard.held.lookup id = some key) : DownSince ops id := by
  have hinv : ∀ id key, s.keyboard.held.lookup id = some key → DownSince ops id := by
    refine trace_inv_all (fun ops s => ∀ id key, s.keyboard.held.lookup id = some key → DownSince ops id)
      (by simp [start]) ?_ hr
    intro ops s op s' hi hs id key hk
    cases op with
    | keyDown keysym i =>
      cases hs
      rcases lookup_keyDown hk with rfl | hk
      · exact ⟨ops, keysym, [], rfl, nofun, nofun⟩
      · exact (hi id key hk).snoc nofun nofun
    | keyUp i =>
      cases hs
      obtain ⟨hne, hk⟩ := lookup_keyUp hk
      exact (hi id key hk).snoc (fun he => hne (by cases he; rfl)) nofun
    | releaseAllKeys order =>
      unfold Inputs.step at hs
      dsimp only at hs
      split at hs
      · cases hs
        simp [Inputs.sends, Keyboard.releaseAll] at hk
      · cases hs
  exact hinv id key h

theorem nothingStuck {ops : List KeyOp} (hm : Meets step Kept start ops) : NothingStuck ops := by
  rintro pre post s rfl hs hall
  have h : Accounted s :=
    trace_inv (fun _ => Accounted) accounted_start (fun _ _ _ _ hi hc hs => hi.step hc hs) hm.append_left hs
  have hheld : values s.keyboard.held = [] := by
    rw [List.eq_nil_iff_forall_not_mem]
    intro k hk
    obtain ⟨id, hid⟩ := mem_values.mp hk
    exact (lookup_downSince hs hid).not_allReleased hall
  rw [List.eq_nil_iff_forall_not_mem]
  intro w hw
  rcases h.held w hw with ⟨k, hk, -⟩ | ⟨-, ha⟩
  · rw [hheld] at hk
    cases hk
  · exact h.added ha hheld

theorem shiftReleased {ops : List KeyOp} (hm : Meets step Kept start ops) : ShiftReleased ops := by
  rintro pre post s rfl hs hw
  have h : Accounted s :=
    trace_inv (fun _ => Accounted) accounted_start (fun _ _ _ _ hi hc hs => hi.step hc hs) hm.append_left hs
  rcases h.held _ hw with ⟨k, hk, hp⟩ | ⟨-, ha⟩
  · exact Or.inl (eq_shift_of_position (h.known k hk) hp ▸ hk)
  · exact Or.inr ⟨ha, h.added ha⟩

/-! ## Shift where it is needed -/

/-- A Shift that this client believes down is down. -/
structure Shifts (s : Inputs) : Prop where
  known : ∀ k ∈ values s.keyboard.held, k.known = true
  added : s.keyboard.shiftAdded = true → 0x2a ∈ guest s.sent
  left : shift ∈ values s.keyboard.held → 0x2a ∈ guest s.sent
  right : rightShift ∈ values s.keyboard.held → 0x36 ∈ guest s.sent

section
variable {s s' : Inputs} {keysym : UInt32} {id : Int64} {key : Key}

/-- A press puts down what it holds, and takes up nothing. -/
theorem mem_insert_press {k : Key} {w : UInt32} (hknown : key.known = true) (hp : k.position = some w)
    (hk : k ∈ values (s.keyboard.held.insert id key)) (hold : k ∈ values s.keyboard.held → w ∈ guest s.sent) :
    w ∈ guest (s.sent ++ [.down key.press]) := by
  rw [mem_guest_press hknown]
  rcases mem_values_insert.mp hk with rfl | ⟨i, -, hi⟩
  · exact Or.inl hp
  · exact Or.inr (hold (mem_values.mpr ⟨i, hi⟩))

theorem Shifts.keyDown (h : Shifts s) : Shifts (s.keyDown keysym id) := by
  unfold Inputs.keyDown
  cases hkey : scancode keysym with
  | none => exact h
  | some key =>
    have hknown := scancode_known hkey
    have hmono : ∀ w ∈ guest s.sent, w ∈ guest (s.sent ++ [.down shift.press]) :=
      fun w hw => (mem_guest_press shift_known).mpr (Or.inr hw)
    rcases s.keyboard.down_cases id key with ⟨he, -⟩ | ⟨he, -⟩
    · simp only [Inputs.sends, he]
      rw [List.append_cons]
      refine ⟨known_insert h.known hknown, ?_, ?_, ?_⟩
      · intro _
        rw [mem_guest_press hknown, mem_guest_press shift_known]
        exact Or.inr (Or.inl rfl)
      · intro hk
        exact mem_insert_press (s := ⟨s.keyboard, s.sent ++ [.down shift.press]⟩) hknown shift_position hk
          fun hk => hmono _ (h.left hk)
      · intro hk
        exact mem_insert_press (s := ⟨s.keyboard, s.sent ++ [.down shift.press]⟩) hknown rightShift_position hk
          fun hk => hmono _ (h.right hk)
    · simp only [Inputs.sends, he]
      refine ⟨known_insert h.known hknown, ?_, ?_, ?_⟩
      · intro ha
        rw [mem_guest_press hknown]
        exact Or.inr (h.added ha)
      · intro hk
        exact mem_insert_press hknown shift_position hk h.left
      · intro hk
        exact mem_insert_press hknown rightShift_position hk h.right

/-- A Shift that stays held does not come up with the key that is released. -/
theorem mem_erase_release {k : Key} {w : UInt32} (hc : ShiftOnce s (.keyUp id))
    (hl : s.keyboard.held.lookup id = some key) (hknown : key.known = true) (hks : k = shift ∨ k = rightShift)
    (hp : k.position = some w) (heq : key.position = some w → key = k) (hk : k ∈ values (s.keyboard.held.erase id))
    (hold : k ∈ values s.keyboard.held → w ∈ guest s.sent) : w ∈ guest (s.sent ++ key.release.toList.map .up) := by
  rw [mem_guest_release hknown]
  refine ⟨hold (mem_values_of_erase hk), ?_⟩
  intro hpos
  obtain rfl := heq hpos
  obtain ⟨i, hi, hli⟩ := mem_values_erase.mp hk
  exact (hc key hl hks).1 ⟨i, key⟩ (AList.mem_lookup_iff.mp hli) hi rfl

theorem Shifts.keyUp (h : Shifts s) (hc : ShiftOnce s (.keyUp id)) : Shifts (s.keyUp id) := by
  unfold Inputs.keyUp
  cases hl : s.keyboard.held.lookup id with
  | none =>
    rw [s.keyboard.up_none hl]
    simpa [Inputs.sends] using h
  | some key =>
    have hknown := h.known key (mem_values.mpr ⟨id, hl⟩)
    have hleft : shift ∈ values (s.keyboard.held.erase id) → 0x2a ∈ guest (s.sent ++ key.release.toList.map .up) :=
      fun hk => mem_erase_release hc hl hknown (Or.inl rfl) shift_position (eq_shift_of_position hknown) hk h.left
    have hright : rightShift ∈ values (s.keyboard.held.erase id) →
        0x36 ∈ guest (s.sent ++ key.release.toList.map .up) :=
      fun hk => mem_erase_release hc hl hknown (Or.inr rfl) rightShift_position (eq_rightShift_of_position hknown) hk
        h.right
    rcases s.keyboard.up_cases hl with ⟨he, -⟩ | ⟨he, hs⟩ | ⟨he, -⟩
    · simp only [Inputs.sends, he]
      exact ⟨known_erase h.known, nofun, hleft, hright⟩
    · simp only [Inputs.sends, he]
      refine ⟨known_erase h.known, nofun, fun hk => absurd hk hs, ?_⟩
      intro hk
      rw [← List.append_assoc, mem_guest_release shift_known]
      exact ⟨hright hk, by decide⟩
    · simp only [Inputs.sends, he]
      refine ⟨known_erase h.known, ?_, hleft, hright⟩
      intro ha
      rw [mem_guest_release hknown]
      refine ⟨h.added ha, ?_⟩
      intro hp
      have hkey := eq_shift_of_position hknown hp
      rw [(hc key hl (Or.inl hkey)).2 hkey] at ha
      cases ha

theorem Shifts.step (h : Shifts s) {op : KeyOp} (hc : ShiftOnce s op) (hs : step s op = some s') : Shifts s' := by
  cases op with
  | keyDown keysym id =>
    cases hs
    exact h.keyDown
  | keyUp id =>
    cases hs
    exact h.keyUp hc
  | releaseAllKeys order =>
    unfold Inputs.step at hs
    dsimp only at hs
    split at hs
    · cases hs
      exact ⟨nofun, nofun, nofun, nofun⟩
    · cases hs

theorem shifts_start : Shifts start := ⟨nofun, nofun, nofun, nofun⟩

/-- A shifted character's make code follows a Shift, its own or one that is down. -/
theorem Shifts.arrives (h : Shifts s) (hsh : key.shifted = true) (hl : s.keyboard.held.lookup id = none) :
    ∃ out, (s.keyboard.down id key).2 = out ++ [.down key.press] ∧ shiftDown (guest (s.sent ++ out)) = true := by
  have hne : ∀ k, k.shifted = false → k ∈ values (s.keyboard.held.insert id key) → k ∈ values s.keyboard.held := by
    intro k hks hk
    rcases mem_values_insert.mp hk with rfl | ⟨i, -, hi⟩
    · rw [hsh] at hks
      cases hks
    · exact mem_values.mpr ⟨i, hi⟩
  rcases s.keyboard.down_cases id key with ⟨he, -⟩ | ⟨he, hd⟩
  · refine ⟨[.down shift.press], by rw [he]; rfl, ?_⟩
    rw [shiftDown_iff, mem_guest_press shift_known]
    exact Or.inl (Or.inl rfl)
  · refine ⟨[], by rw [he]; rfl, ?_⟩
    rw [shiftDown_iff, List.append_nil]
    rcases hd hsh hl with ha | hs | hs
    · exact Or.inl (h.added ha)
    · exact Or.inl (h.left (hne shift rfl hs))
    · exact Or.inr (h.right (hne rightShift rfl hs))

end

theorem needsShift_shifted {keysym : UInt32} (h : needsShift keysym = some true) :
    ∃ key, scancode keysym = some key ∧ key.shifted = true := by
  unfold needsShift at h
  split at h
  · rename_i code sh hk
    split at h
    · cases h
    · cases h
      exact ⟨_, hk, rfl⟩
  · cases h

theorem arrivesWith_shift {ops : List KeyOp} (hm : Meets step ShiftOnce start ops) : ArrivesWith true ops := by
  rintro pre keysym id post s rfl hs hl hn
  have h : Shifts s :=
    trace_inv (fun _ => Shifts) shifts_start (fun _ _ _ _ hi hc hs => hi.step hc hs) hm.append_left hs
  obtain ⟨key, hkey, hsh⟩ := needsShift_shifted hn
  obtain ⟨out, hout, hd⟩ := h.arrives hsh hl
  exact ⟨key, out, hkey, hout, hd⟩

/-- In every run in which a held id is pressed again only in its position, a guest that was told of
every key's end holds nothing, and the Shift added for a character ends with the keys; in every run
in which no Shift comes up that something else holds too, a character that needs Shift arrives with
one down. A key that needs none is sent as it is, with whatever Shift there is. -/
theorem keyboard_spec (ops : List KeyOp) :
    (Meets step Kept start ops → NothingStuck ops ∧ ShiftReleased ops) ∧
      (Meets step ShiftOnce start ops → ArrivesWith true ops) ∧
      ∀ (s : Keyboard) (id : Int64) (key : Key), key.shifted = false → (s.down id key).2 = [.down key.press] := by
  refine ⟨fun hm => ⟨nothingStuck hm, shiftReleased hm⟩, arrivesWith_shift, ?_⟩
  intro s id key hsh
  rcases s.down_cases id key with ⟨-, hs⟩ | ⟨he, -⟩
  · rw [hsh] at hs
    cases hs
  · rw [he]

/-- `A`, the user's Left Shift during it, and both let go of. -/
theorem keyboard_spec_taken_over :
    NothingStuck [.keyDown 0x41 1, .keyDown 0xffe1 2, .keyUp 1, .keyUp 2] ∧
      ArrivesWith true [.keyDown 0x41 1, .keyDown 0xffe1 2, .keyUp 1, .keyUp 2] := by
  obtain ⟨hk, hs, -⟩ := keyboard_spec [.keyDown 0x41 1, .keyDown 0xffe1 2, .keyUp 1, .keyUp 2]
  exact ⟨(hk (by decide +kernel)).1, hs (by decide +kernel)⟩

theorem not_arrivesWith (pre : List KeyOp) (key : Key) {need : Bool} {post : List KeyOp} {keysym : UInt32} {id : Int64}
    {s : Inputs} (hs : typed pre = some s) (hl : s.keyboard.held.lookup id = none) (hn : needsShift keysym = some need)
    (hkey : scancode keysym = some key) (hout : (s.keyboard.down id key).2 = [.down key.press])
    (hd : shiftDown (guest s.sent) ≠ need) : ¬ArrivesWith need (pre ++ .keyDown keysym id :: post) := by
  intro h
  obtain ⟨key', out, hkey', hout', hd'⟩ := h pre keysym id post s rfl hs hl hn
  cases hkey.symm.trans hkey'
  have hlen := congrArg List.length (hout.symm.trans hout')
  simp only [List.length_append, List.length_singleton, Nat.right_eq_add, List.length_eq_zero_iff] at hlen
  rw [hlen, List.append_nil] at hd'
  exact hd hd'

theorem allReleased_snoc (ops : List KeyOp) (order : List Key) : AllReleased (ops ++ [.releaseAllKeys order]) := by
  intro pre keysym id post h
  rcases snoc_eq_append_cons.mp h with ⟨-, he, -⟩ | ⟨post', -, rfl⟩
  · cases he
  · exact Or.inr ⟨order, by simp⟩

/-- `a` pressed while `A` is held arrives with the Shift that was added for `A`. Beside it, what the
conditions leave out: `7` repeating as `/` leaves `7` down for good, and `B` arrives without Shift
when the user's own came up during `A`. -/
theorem shift_and_ids_shared :
    ¬ArrivesWith false [.keyDown 0x41 1, .keyDown 0x61 2] ∧
      ¬NothingStuck [.keyDown 0x37 1, .keyDown 0x2f 1, .releaseAllKeys [.scancode 0x35 false]] ∧
      ¬ArrivesWith true [.keyDown 0x41 1, .keyDown 0xffe1 2, .keyUp 2, .keyDown 0x42 3] := by
  refine ⟨?_, ?_, ?_⟩
  · exact not_arrivesWith [.keyDown 0x41 1] (.scancode 0x1e false) rfl (by decide +kernel)
      (by decide +kernel) (by decide +kernel) (by decide +kernel) (by decide +kernel)
  · intro h
    have hstuck := h _ [] _ (List.append_nil _).symm rfl
      (allReleased_snoc [.keyDown 0x37 1, .keyDown 0x2f 1] [.scancode 0x35 false])
    exact absurd hstuck (by decide +kernel)
  · exact not_arrivesWith [.keyDown 0x41 1, .keyDown 0xffe1 2, .keyUp 2] (.scancode 0x30 true) rfl
      (by decide +kernel) (by decide +kernel) (by decide +kernel) (by decide +kernel) (by decide +kernel)

end Vento.Spice
