import Mathlib.Logic.Function.Basic
import Vento.Control.KeySink
/-!
# The physical keyboard

`keyDown`, `keyUp` and `releaseAll` of `control/input/PhysicalKeyboard.java`,
with the far end their calls reach. The keysym that a key means is looked up
from its code, the modifiers and a layout, and may be another at each press; it
is an argument here, and so is Android's repeat count. The listener, which
redraws a count, is left out.
-/

namespace Vento.Control

open Vento.Lib

/-- The keysym each held key went down with, by key code, or 0. The table grows
with the codes that come. -/
structure PhysicalKeyboard where
  held : List UInt32
  heldCount : Int
deriving DecidableEq, Repr

namespace PhysicalKeyboard

def new : PhysicalKeyboard := ⟨List.replicate 256 0, 0⟩

def keyId (keyCode : Nat) : Int32 := KeySink.idSystemKeyboard + Int32.ofNat keyCode

/-- The keysym that the key with `keyCode` went down with, or 0. -/
def went (held : List UInt32) (keyCode : Nat) : UInt32 := held.getD keyCode 0

/-- `held`, as long as it takes for `keyCode`. -/
def grown (s : PhysicalKeyboard) (keyCode : Nat) : List UInt32 :=
  if keyCode ≥ s.held.length then s.held ++ List.replicate (keyCode + 1 - s.held.length) 0 else s.held

/-- The keyboard after a press, what it sent, and whether it took the key. No
array is long enough for the largest code there is: that press throws. -/
def keyDown (s : PhysicalKeyboard) (keyCode : Int32) (keysym : UInt32) (repeatCount : Int32) :
    Option (PhysicalKeyboard × List KeyCall × Bool) :=
  if keyCode < 0 then some (s, [], false)
  else if keyCode = Int32.maxValue then none
  else
    let code := keyCode.toNatClampNeg
    let s := { s with held := s.grown code }
    if repeatCount > 0 ∧ went s.held code ≠ 0 then some (s, [.keyDown (went s.held code) (keyId code)], true)
    else if keysym = 0 then some (s, [], false)
    else
      some (⟨s.held.set code keysym, if went s.held code = 0 then s.heldCount + 1 else s.heldCount⟩,
        [.keyDown keysym (keyId code)], true)

/-- The keyboard after a release, what it sent, and the keysym let go of. -/
def keyUp (s : PhysicalKeyboard) (keyCode : Int32) : PhysicalKeyboard × List KeyCall × UInt32 :=
  let code := keyCode.toNatClampNeg
  if keyCode < 0 ∨ code ≥ s.held.length ∨ went s.held code = 0 then (s, [], 0)
  else (⟨s.held.set code 0, s.heldCount - 1⟩, [.keyUp (keyId code)], went s.held code)

def releaseAll (s : PhysicalKeyboard) : PhysicalKeyboard × List KeyCall :=
  (⟨s.held.map fun _ => 0, 0⟩,
    ((List.range s.held.length).filter fun code => went s.held code ≠ 0).map fun code => .keyUp (keyId code))

end PhysicalKeyboard

/-- The keyboard, and the calls of its sink so far. -/
structure Typing where
  keyboard : PhysicalKeyboard
  sink : List KeyCall

namespace Typing

open PhysicalKeyboard

inductive Op where
  | keyDown (keyCode : Int32) (keysym : UInt32) (repeatCount : Int32)
  | keyUp (keyCode : Int32)
  | releaseAll
deriving DecidableEq, Repr

def start : Typing := ⟨.new, []⟩

/-- A press that throws changes nothing. -/
def step (s : Typing) : Op → Option Typing
  | .keyDown keyCode keysym repeatCount =>
    match s.keyboard.keyDown keyCode keysym repeatCount with
    | some (keyboard, calls, _) => some ⟨keyboard, s.sink ++ calls⟩
    | none => some s
  | .keyUp keyCode => some ⟨(s.keyboard.keyUp keyCode).1, s.sink ++ (s.keyboard.keyUp keyCode).2.1⟩
  | .releaseAll => some ⟨s.keyboard.releaseAll.1, s.sink ++ s.keyboard.releaseAll.2⟩

def farEnd (s : Typing) : FarEnd := .after s.sink

end Typing

/-! ## Codes, keysyms and ids -/

namespace PhysicalKeyboard

theorem keyId_inj {a b : Nat} (ha : a < 2 ^ 31) (hb : b < 2 ^ 31) (h : keyId a = keyId b) : a = b :=
  KeySink.id_inj _ ha hb h

theorem went_set {held : List UInt32} {code : Nat} (h : code < held.length) (keysym : UInt32) :
    went (held.set code keysym) = Function.update (went held) code keysym := by
  funext c
  exact (KeySink.getD_set h keysym 0 c).trans (Function.update_apply (went held) code keysym c).symm

theorem went_grown (s : PhysicalKeyboard) (code : Nat) : went (s.grown code) = went s.held := by
  funext c
  unfold grown went
  split
  · by_cases hc : c < s.held.length
    · rw [List.getD_append _ _ _ _ hc]
    · rw [List.getD_append_right _ _ _ _ (by omega), List.getD_eq_default _ _ (Nat.le_of_not_lt hc)]
      by_cases hr : c - s.held.length < code + 1 - s.held.length
      · rw [List.getD_replicate _ hr]
      · rw [List.getD_eq_default _ _ (by rw [List.length_replicate]; omega)]
  · rfl

theorem lt_length_of_went {held : List UInt32} {code : Nat} (h : went held code ≠ 0) : code < held.length := by
  by_contra hnot
  exact h (List.getD_eq_default _ _ (Nat.le_of_not_lt hnot))

theorem mem_iff_went {held : List UInt32} {k : UInt32} (hk : k ≠ 0) : k ∈ held ↔ ∃ code, went held code = k := by
  rw [List.mem_iff_getElem]
  constructor
  · rintro ⟨code, hcode, rfl⟩
    exact ⟨code, List.getD_eq_getElem _ _ hcode⟩
  · rintro ⟨code, rfl⟩
    have hcode := lt_length_of_went hk
    exact ⟨code, hcode, (List.getD_eq_getElem _ _ hcode).symm⟩

/-- How many keys are down by the table. -/
def down (held : List UInt32) : Nat := held.countP (· ≠ 0)

theorem down_grown (s : PhysicalKeyboard) (code : Nat) : down (s.grown code) = down s.held := by
  unfold grown down
  split
  · rw [List.countP_append, List.countP_replicate, if_neg (by decide), Nat.add_zero]
  · rfl

theorem down_set {held : List UInt32} {code : Nat} (h : code < held.length) (keysym : UInt32) :
    down (held.set code keysym) + (if went held code = 0 then 0 else 1) =
      down held + if keysym = 0 then 0 else 1 := by
  have hwent : went held code = held[code] := List.getD_eq_getElem _ _ h
  have hpos : went held code ≠ 0 → 0 < down held := by
    intro hne
    refine List.countP_pos_iff.2 ⟨held[code], List.getElem_mem h, ?_⟩
    rw [← hwent]
    exact decide_eq_true hne
  unfold down at hpos ⊢
  rw [List.countP_set h, ← hwent]
  simp only [decide_eq_true_eq, ne_eq, ite_not]
  by_cases hw : went held code = 0
  · rw [if_pos hw]
    omega
  · have hone := hpos hw
    simp only [ne_eq] at hone
    rw [if_neg hw]
    omega

/-! ## What the sink was told -/

/-- The far end has what the table has: under the id of each key the keysym that it
went down with, and nothing else. -/
structure Kept (sink : List KeyCall) (table : Nat → UInt32) : Prop where
  held : ∀ id k, (FarEnd.after sink).held id = some k ↔ ∃ code < 2 ^ 31, keyId code = id ∧ table code = k ∧ k ≠ 0
  clean : (FarEnd.after sink).Clean
  names : FarEnd.NamesPressed sink

theorem Kept.held_keyId {sink : List KeyCall} {table : Nat → UInt32} (h : Kept sink table) {code : Nat}
    (hcode : code < 2 ^ 31) (k : UInt32) :
    (FarEnd.after sink).held (keyId code) = some k ↔ table code = k ∧ k ≠ 0 := by
  rw [h.held]
  constructor
  · rintro ⟨c, hc, hid, hk⟩
    rwa [keyId_inj hc hcode hid] at hk
  · exact fun hk => ⟨code, hcode, rfl, hk⟩

theorem kept_start : Kept [] (fun _ => 0) where
  held id k := by
    refine ⟨nofun, ?_⟩
    rintro ⟨code, -, -, rfl, hne⟩
    exact absurd rfl hne
  clean := FarEnd.clean_start
  names := FarEnd.namesPressed_nil

/-- A press of a key that is up, or of one that is down with the keysym it has. -/
theorem Kept.keyDown {sink : List KeyCall} {table : Nat → UInt32} (h : Kept sink table) {code : Nat}
    (hcode : code < 2 ^ 31) {keysym : UInt32} (hkeysym : keysym ≠ 0) (hsame : table code ≠ 0 → table code = keysym) :
    Kept (sink ++ [.keyDown keysym (keyId code)]) (Function.update table code keysym) where
  held id k := by
    rw [FarEnd.after_append]
    show (if id = keyId code then some keysym else (FarEnd.after sink).held id) = some k ↔ _
    by_cases hid : id = keyId code
    · rw [if_pos hid, Option.some_inj]
      constructor
      · rintro rfl
        exact ⟨code, hcode, hid.symm, Function.update_self .., hkeysym⟩
      · rintro ⟨c, hc, hcid, hk, -⟩
        rw [← hk, keyId_inj hc hcode (hcid.trans hid), Function.update_self]
    · rw [if_neg hid, h.held]
      refine exists_congr fun c => and_congr_right fun hc => and_congr_right fun hcid => ?_
      rw [Function.update_of_ne]
      rintro rfl
      exact hid hcid.symm
  clean := by
    rw [FarEnd.after_append]
    apply h.clean.keyDown
    intro k hk
    obtain ⟨rfl, hne⟩ := (h.held_keyId hcode k).1 hk
    exact hsame hne
  names := h.names.keyDown keysym (keyId code)

/-- A release of a key that is down. -/
theorem Kept.keyUp {sink : List KeyCall} {table : Nat → UInt32} (h : Kept sink table) {code : Nat}
    (hcode : code < 2 ^ 31) (hdown : table code ≠ 0) :
    Kept (sink ++ [.keyUp (keyId code)]) (Function.update table code 0) where
  held id k := by
    rw [FarEnd.after_append, List.foldl_cons, List.foldl_nil, FarEnd.keyUp_held]
    by_cases hid : id = keyId code
    · rw [if_pos hid]
      refine ⟨nofun, ?_⟩
      rintro ⟨c, hc, hcid, rfl, hne⟩
      rw [keyId_inj hc hcode (hcid.trans hid), Function.update_self] at hne
      exact absurd rfl hne
    · rw [if_neg hid, h.held]
      refine exists_congr fun c => and_congr_right fun hc => and_congr_right fun hcid => ?_
      rw [Function.update_of_ne]
      rintro rfl
      exact hid hcid.symm
  clean := by
    rw [FarEnd.after_append]
    exact h.clean.keyUp (keyId code)
  names := h.names.keyUp ((h.held_keyId hcode _).2 ⟨rfl, hdown⟩)

/-- Releases of keys that are down, one after another. -/
theorem Kept.keyUps {sink : List KeyCall} {table : Nat → UInt32} (h : Kept sink table) {codes : List Nat}
    (hnodup : codes.Nodup) (hcodes : ∀ code ∈ codes, code < 2 ^ 31 ∧ table code ≠ 0) :
    Kept (sink ++ codes.map fun code => .keyUp (keyId code)) (fun code => if code ∈ codes then 0 else table code) := by
  induction codes generalizing sink table with
  | nil => simpa using h
  | cons code codes ih =>
    obtain ⟨hcode, hdown⟩ := hcodes code List.mem_cons_self
    obtain ⟨hnot, hnodup⟩ := List.nodup_cons.1 hnodup
    have hrest : ∀ c ∈ codes, c < 2 ^ 31 ∧ Function.update table code 0 c ≠ 0 := by
      intro c hc
      have hne : c ≠ code := by
        rintro rfl
        exact hnot hc
      rw [Function.update_of_ne hne]
      exact hcodes c (List.mem_cons_of_mem _ hc)
    have hlast := ih (h.keyUp hcode hdown) hnodup hrest
    rw [List.append_assoc, List.singleton_append] at hlast
    refine (congrArg (Kept _) ?_).mp hlast
    funext c
    by_cases hc : c = code
    · subst hc
      rw [if_neg hnot, Function.update_self, if_pos List.mem_cons_self]
    · rw [Function.update_of_ne hc]
      simp only [List.mem_cons, hc, false_or]

end PhysicalKeyboard

namespace Typing

open PhysicalKeyboard

/-! ## Runs -/

/-- A press of a key that is down has the keysym it went down with, unless
Android says that it repeats. -/
def Steady (s : Typing) : Op → Prop
  | .keyDown keyCode keysym repeatCount =>
    0 ≤ keyCode → repeatCount ≤ 0 → keysym ≠ 0 → went s.keyboard.held keyCode.toNatClampNeg ≠ 0 →
      went s.keyboard.held keyCode.toNatClampNeg = keysym
  | .keyUp _ | .releaseAll => True

instance (s : Typing) : DecidablePred s.Steady
  | .keyDown _ _ _ => inferInstanceAs (Decidable (_ → _ → _ → _ → _))
  | .keyUp _ | .releaseAll => .isTrue trivial

/-- The table and its count are what the far end has. -/
structure Alike (s : Typing) : Prop where
  length : s.keyboard.held.length < 2 ^ 31
  kept : Kept s.sink (went s.keyboard.held)
  count : s.keyboard.heldCount = PhysicalKeyboard.down s.keyboard.held

theorem start_alike : start.Alike where
  length := Nat.lt_of_le_of_lt (Nat.le_of_eq (List.length_replicate ..)) (by decide)
  kept := by
    have hzero : went (List.replicate 256 0) = fun _ => 0 := by
      funext code
      exact KeySink.getD_replicate 256 0 code
    show Kept [] (went (List.replicate 256 0))
    rw [hzero]
    exact kept_start
  count := by
    show 0 = ((List.replicate 256 (0 : UInt32)).countP (· ≠ 0) : Int)
    rw [List.countP_replicate]
    rfl

theorem grown_length (s : PhysicalKeyboard) {code : Nat} (hs : s.held.length < 2 ^ 31) (hcode : code + 1 < 2 ^ 31) :
    code < (s.grown code).length ∧ (s.grown code).length < 2 ^ 31 := by
  unfold grown
  split
  · rw [List.length_append, List.length_replicate]
    omega
  · omega

theorem code_lt {keyCode : Int32} (h : ¬keyCode < 0) (hmax : keyCode ≠ Int32.maxValue) :
    keyCode.toNatClampNeg + 1 < 2 ^ 31 := by
  have hlt := keyCode.toNatClampNeg_lt
  by_contra hnot
  apply hmax
  rw [← Int32.ofNat_toNatClampNeg keyCode (Int32.not_lt.1 h), show keyCode.toNatClampNeg = 2 ^ 31 - 1 by omega]
  rfl

theorem Alike.keyDown {s : Typing} (h : s.Alike) {keyCode : Int32} {keysym : UInt32} {repeatCount : Int32}
    (hok : s.Steady (.keyDown keyCode keysym repeatCount)) {keyboard : PhysicalKeyboard} {calls : List KeyCall}
    {taken : Bool} (hdown : s.keyboard.keyDown keyCode keysym repeatCount = some (keyboard, calls, taken)) :
    Alike ⟨keyboard, s.sink ++ calls⟩ := by
  unfold PhysicalKeyboard.keyDown at hdown
  split at hdown
  · cases hdown
    rw [List.append_nil]
    exact h
  · rename_i hneg
    split at hdown
    · cases hdown
    · rename_i hmax
      have hcode := code_lt hneg hmax
      obtain ⟨hlt, hlength⟩ := grown_length s.keyboard h.length hcode
      have hkept : Kept s.sink (went (s.keyboard.grown keyCode.toNatClampNeg)) := by
        rw [went_grown]
        exact h.kept
      have hcount : s.keyboard.heldCount = PhysicalKeyboard.down (s.keyboard.grown keyCode.toNatClampNeg) := by
        rw [down_grown]
        exact h.count
      have hsteady := hok (Int32.not_lt.1 hneg)
      rw [← went_grown s.keyboard keyCode.toNatClampNeg] at hsteady
      simp only at hdown
      split at hdown
      · -- a repeat says again what the far end has
        rename_i hrepeat
        cases hdown
        refine ⟨hlength, ?_, hcount⟩
        have hsame := hkept.keyDown (by omega) hrepeat.2 fun _ => rfl
        rwa [Function.update_eq_self] at hsame
      · rename_i hrepeat
        split at hdown
        · cases hdown
          rw [List.append_nil]
          exact ⟨hlength, hkept, hcount⟩
        · rename_i hkeysym
          cases hdown
          refine ⟨by rwa [List.length_set], ?_, ?_⟩
          · rw [went_set hlt]
            exact hkept.keyDown (by omega) hkeysym fun hne =>
              hsteady (Int32.not_lt.1 fun hr => hrepeat ⟨hr, hne⟩) hkeysym hne
          · have hset := down_set hlt keysym
            rw [if_neg hkeysym] at hset
            show (if went _ _ = 0 then _ else _) = _
            by_cases hw : went (s.keyboard.grown keyCode.toNatClampNeg) keyCode.toNatClampNeg = 0
            · rw [if_pos hw] at hset ⊢
              simp only
              omega
            · rw [if_neg hw] at hset ⊢
              simp only
              omega

theorem Alike.keyUp {s : Typing} (h : s.Alike) (keyCode : Int32) :
    Alike ⟨(s.keyboard.keyUp keyCode).1, s.sink ++ (s.keyboard.keyUp keyCode).2.1⟩ := by
  unfold PhysicalKeyboard.keyUp
  simp only
  split
  · rw [List.append_nil]
    exact h
  · rename_i hdown
    simp only [not_or, ge_iff_le, Nat.not_le] at hdown
    obtain ⟨-, hlt, hne⟩ := hdown
    have hset := down_set hlt 0
    rw [if_neg hne, if_pos rfl] at hset
    refine ⟨Nat.lt_of_le_of_lt (Nat.le_of_eq (List.length_set ..)) h.length, ?_, ?_⟩
    · rw [went_set hlt]
      exact h.kept.keyUp (Nat.lt_trans hlt h.length) hne
    · simp only [h.count]
      omega

theorem Alike.releaseAll {s : Typing} (h : s.Alike) :
    Alike ⟨s.keyboard.releaseAll.1, s.sink ++ s.keyboard.releaseAll.2⟩ := by
  refine ⟨Nat.lt_of_le_of_lt (Nat.le_of_eq (List.length_map ..)) h.length, ?_, ?_⟩
  · refine (congrArg (Kept _) ?_).mp (h.kept.keyUps (List.nodup_range.filter _) ?_)
    · -- every key that is down is among those released
      funext code
      have hzero : went (s.keyboard.held.map fun _ => 0) code = 0 := by
        unfold went
        rw [List.getD_eq_getElem?_getD, List.getElem?_map]
        cases s.keyboard.held[code]? <;> rfl
      refine Eq.trans ?_ hzero.symm
      split
      · rfl
      · rename_i hnot
        by_contra hne
        apply hnot
        rw [List.mem_filter, List.mem_range]
        exact ⟨lt_length_of_went hne, decide_eq_true hne⟩
    · intro code hcode
      rw [List.mem_filter, List.mem_range] at hcode
      exact ⟨Nat.lt_trans hcode.1 h.length, of_decide_eq_true hcode.2⟩
  · show (0 : Int) = _
    unfold PhysicalKeyboard.down
    rw [List.countP_eq_zero.2]
    · rfl
    · intro k hk
      obtain ⟨_, -, rfl⟩ := List.mem_map.1 hk
      decide

theorem Alike.step {s s' : Typing} (h : s.Alike) {op : Op} (hok : s.Steady op) (hs : s.step op = some s') :
    s'.Alike := by
  cases op with
  | keyDown keyCode keysym repeatCount =>
    rw [Typing.step] at hs
    split at hs
    · rename_i hdown
      cases hs
      exact h.keyDown hok hdown
    · cases hs
      exact h
  | keyUp keyCode =>
    cases hs
    exact h.keyUp keyCode
  | releaseAll =>
    cases hs
    exact h.releaseAll

theorem step_some (s : Typing) (op : Op) : ∃ s', s.step op = some s' := by
  cases op with
  | keyDown keyCode keysym repeatCount =>
    rw [Typing.step]
    split <;> exact ⟨_, rfl⟩
  | keyUp keyCode => exact ⟨_, rfl⟩
  | releaseAll => exact ⟨_, rfl⟩

/-- Nothing that happens is refused. -/
theorem runs (ops : List Op) (s : Typing) : ∃ s', run step s ops = some s' := by
  induction ops generalizing s with
  | nil => exact ⟨s, rfl⟩
  | cons op ops ih =>
    obtain ⟨s', hs⟩ := s.step_some op
    rw [run_cons, hs]
    exact ih s'

theorem Alike.holds_iff {s : Typing} (h : s.Alike) (k : UInt32) :
    s.farEnd.Holds k ↔ k ≠ 0 ∧ k ∈ s.keyboard.held := by
  constructor
  · rintro ⟨id, hid⟩
    obtain ⟨code, -, -, hwent, hk⟩ := (h.kept.held id k).1 ((h.kept.clean id k).1 hid)
    exact ⟨hk, (mem_iff_went hk).2 ⟨code, hwent⟩⟩
  · rintro ⟨hk, hmem⟩
    obtain ⟨code, rfl⟩ := (mem_iff_went hk).1 hmem
    have hcode := Nat.lt_trans (lt_length_of_went hk) h.length
    exact ⟨keyId code, (h.kept.clean _ _).2 ((h.kept.held_keyId hcode _).2 ⟨rfl, hk⟩)⟩

/-- Whatever keys are pressed, repeated, released and let go of, from however many
keyboards: if no key that is down is pressed afresh as another keysym, the far
end holds what the table has, and nothing once all is let go of. -/
theorem never_leaves_a_key_down {ops : List Op} {s : Typing} (hm : Meets step Steady start ops)
    (hr : run step start ops = some s) :
    (∀ k, s.farEnd.Holds k ↔ k ≠ 0 ∧ k ∈ s.keyboard.held) ∧
    s.keyboard.heldCount = s.keyboard.held.countP (· ≠ 0) ∧
    FarEnd.NamesPressed s.sink ∧
    ∀ s', s.step .releaseAll = some s' → ∀ k, ¬s'.farEnd.Holds k := by
  have h : s.Alike := trace_inv (fun _ s => s.Alike) start_alike (fun _ _ _ _ hi hok hs => hi.step hok hs) hm hr
  refine ⟨h.holds_iff, h.count, h.kept.names, fun s' hs k hk => ?_⟩
  have h' : s'.Alike := h.step (show s.Steady .releaseAll from trivial) hs
  obtain ⟨hne, hmem⟩ := (h'.holds_iff k).1 hk
  cases hs
  obtain ⟨_, -, rfl⟩ := List.mem_map.1 hmem
  exact hne rfl

/-- A key that repeats while Shift comes down. -/
theorem never_leaves_a_key_down_repeat : ∃ s,
    run step start [.keyDown 29 0x61 0, .keyDown 59 0xffe1 0, .keyDown 29 0x41 1, .keyUp 29] = some s ∧
      ∀ k, s.farEnd.Holds k ↔ k ≠ 0 ∧ k ∈ s.keyboard.held := by
  obtain ⟨s, hs⟩ := runs [.keyDown 29 0x61 0, .keyDown 59 0xffe1 0, .keyDown 29 0x41 1, .keyUp 29] start
  exact ⟨s, hs, (never_leaves_a_key_down (by decide +kernel) hs).1⟩

/-- Two keyboards have one key down, one of them with Shift: the second press is
all that is ever let go of. -/
theorem second_press_sticks : ∃ s,
    run step start [.keyDown 29 0x61 0, .keyDown 29 0x41 0, .releaseAll] = some s ∧ s.farEnd.Holds 0x61 := by
  refine ⟨_, rfl, 0x0002001d, ?_⟩
  decide +kernel

end Typing

end Vento.Control
