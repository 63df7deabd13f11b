import Mathlib.Algebra.Ring.Nat
import Mathlib.Data.Fintype.Card
import Vento.Rfb.Keys
/-!
# The keys as the far end has them

`Keyboard` of `linux/src/gui/keys.rs` over the RFB client's keys (`Rfb.Keys`). A physical key goes
down as the keysym it has at the time, under an id of its own; the client keeps the keysym that
went down under an id, and the server sees keysyms alone.

The two maps are the same one but for the ids, in every run (`Paired`). What the server has down is
what they hold as long as no keysym is lost under way: `Spares` says of each call when it is not,
and `keyboard_alike` is about the runs of such calls.
-/

namespace Vento.Linux

open Vento.Lib Vento.Rfb

/-- A stable small integer per physical key, handed out as keys are first seen. -/
structure KeyIds (κ : Type) [DecidableEq κ] where
  ids : AList fun _ : κ => Int64

/-- A key event: `isRepeat` where the press is the key repeating, not a press of its own. -/
structure Stroke (κ : Type) where
  physical : κ
  pressed : Bool
  isRepeat : Bool
  keysym : Option UInt32
deriving DecidableEq, Repr

/-- What a key handed to the far end came to. -/
structure Taken where
  sent : Bool := false
  escape : Bool := false
deriving DecidableEq, Repr

/-- A call made on the backend. -/
inductive Told where
  | keyDown (keysym : UInt32) (id : Int64)
  | keyUp (id : Int64)
  | releaseAllKeys
deriving DecidableEq, Repr

structure Keyboard (κ : Type) [DecidableEq κ] where
  ids : KeyIds κ
  /-- The physical keys down at the far end, and the keysym each went down as. -/
  held : AList fun _ : κ => UInt32

variable {κ : Type} [DecidableEq κ]

def KeyIds.id (s : KeyIds κ) (key : κ) : Int64 × KeyIds κ :=
  match s.ids.lookup key with
  | some id => (id, s)
  | none =>
    let next := Int64.ofNat s.ids.entries.length + 1
    (next, ⟨s.ids.insert key next⟩)

/-- Ctrl and Alt, either side, among the keysyms together. -/
def chord (keys : AList fun _ : κ => UInt32) : Bool :=
  let down := fun a b : UInt32 => (values keys).any fun k => k == a || k == b
  down 0xffe3 0xffe4 && down 0xffe9 0xffea

namespace Keyboard

def start : Keyboard κ := ⟨⟨∅⟩, ∅⟩

def press (s : Keyboard κ) (physical : κ) (keysym : UInt32) : Keyboard κ × Option Told :=
  let (id, ids) := s.ids.id physical
  (⟨ids, s.held.insert physical keysym⟩, some (.keyDown keysym id))

def up (s : Keyboard κ) (physical : κ) : Keyboard κ × Option Told :=
  match s.held.lookup physical with
  | some _ =>
    let (id, ids) := s.ids.id physical
    (⟨ids, s.held.erase physical⟩, some (.keyUp id))
  | none => (s, none)

/-- A key that is the far end's. -/
def key (s : Keyboard κ) (stroke : Stroke κ) (captured : Bool) : Keyboard κ × Option Told × Taken :=
  if !stroke.pressed then
    let (s, told) := s.up stroke.physical
    (s, told, {})
  else if stroke.isRepeat then
    match stroke.keysym.filter fun _ => (s.held.lookup stroke.physical).isSome with
    | some keysym =>
      let (s, told) := s.press stroke.physical keysym
      (s, told, { sent := true })
    | none => (s, none, {})
  else
    match stroke.keysym with
    | some keysym =>
      let (s, told) := s.press stroke.physical keysym
      (s, told, { sent := true, escape := captured && chord s.held })
    | none => (s, none, { escape := captured && chord s.held })

/-- A key that is the window's own, which is still released at the far end. -/
def elsewhere (s : Keyboard κ) (stroke : Stroke κ) : Keyboard κ × Option Told :=
  if !stroke.pressed then s.up stroke.physical else (s, none)

/-- Lets go of every key the far end has down. -/
def releaseAll (s : Keyboard κ) : Keyboard κ × Option Told :=
  if s.held.entries = [] then (s, none) else (⟨s.ids, ∅⟩, some .releaseAllKeys)

def focusLost (s : Keyboard κ) : Keyboard κ × Option Told := s.releaseAll

end Keyboard

/-! ## With the client -/

/-- The keyboard, and the client it is handed. -/
structure Desk (κ : Type) [DecidableEq κ] where
  keyboard : Keyboard κ
  far : Keys

/-- What happens to a keyboard. A release of all comes with the order the client's map is visited in. -/
inductive Event (κ : Type) where
  | key (stroke : Stroke κ) (captured : Bool)
  | elsewhere (stroke : Stroke κ)
  | releaseAll (order : List UInt32)
  | focusLost (order : List UInt32)
deriving DecidableEq, Repr

/-- The stroke of an event, and whether it is the far end's. -/
def Event.stroke? : Event κ → Option (Stroke κ)
  | .key stroke _ | .elsewhere stroke => some stroke
  | .releaseAll _ | .focusLost _ => none

namespace Desk

def start : Desk κ := ⟨.start, .start⟩

/-- The client is told. -/
def hear (far : Keys) (order : List UInt32) : Option Told → Option Keys
  | some (.keyDown keysym id) => far.step (.keyDown keysym id)
  | some (.keyUp id) => far.step (.keyUp id)
  | some .releaseAllKeys => far.step (.releaseAllKeys order)
  | none => some far

def step (s : Desk κ) : Event κ → Option (Desk κ)
  | .key stroke captured =>
    let (keyboard, told, _) := s.keyboard.key stroke captured
    (hear s.far [] told).map (⟨keyboard, ·⟩)
  | .elsewhere stroke =>
    let (keyboard, told) := s.keyboard.elsewhere stroke
    (hear s.far [] told).map (⟨keyboard, ·⟩)
  | .releaseAll order =>
    let (keyboard, told) := s.keyboard.releaseAll
    (hear s.far order told).map (⟨keyboard, ·⟩)
  | .focusLost order =>
    let (keyboard, told) := s.keyboard.focusLost
    (hear s.far order told).map (⟨keyboard, ·⟩)

/-- A key that goes down as another keysym than it is down as leaves one that another key is down as too. -/
def Keeps (held : AList fun _ : κ => UInt32) (physical : κ) (keysym : UInt32) : Prop :=
  ∀ old ∈ held.lookup physical, old ≠ keysym → ∃ e ∈ held.entries, e.1 ≠ physical ∧ e.2 = old

/-- A key that is released is the only one down as its keysym. -/
def Alone (held : AList fun _ : κ => UInt32) (physical : κ) : Prop :=
  ∀ old ∈ held.lookup physical, ∀ e ∈ held.entries, e.1 ≠ physical → e.2 ≠ old

/-- No keysym that a held key has is lost by the event: and a key that repeats does so as a keysym that some key
is down as. -/
def Spares (s : Desk κ) : Event κ → Prop
  | .key stroke _ =>
    if stroke.pressed then
      ∀ keysym ∈ stroke.keysym, Keeps s.keyboard.held stroke.physical keysym ∧
        (stroke.isRepeat = true → s.keyboard.held.lookup stroke.physical ≠ none → keysym ∈ values s.keyboard.held)
    else Alone s.keyboard.held stroke.physical
  | .elsewhere stroke => stroke.pressed = false → Alone s.keyboard.held stroke.physical
  | .releaseAll _ | .focusLost _ => True

instance (held : AList fun _ : κ => UInt32) (physical : κ) (keysym : UInt32) : Decidable (Keeps held physical keysym) :=
  have (old : UInt32) : Decidable (∃ e ∈ held.entries, e.1 ≠ physical ∧ e.2 = old) := List.decidableBEx _ _
  Option.decidableForallMem _

instance (held : AList fun _ : κ => UInt32) (physical : κ) : Decidable (Alone held physical) :=
  have (old : UInt32) : Decidable (∀ e ∈ held.entries, e.1 ≠ physical → e.2 ≠ old) := List.decidableBAll _ _
  Option.decidableForallMem _

instance (s : Desk κ) : DecidablePred s.Spares
  | .key stroke _ =>
    have : Decidable (∀ keysym ∈ stroke.keysym, Keeps s.keyboard.held stroke.physical keysym ∧
        (stroke.isRepeat = true → s.keyboard.held.lookup stroke.physical ≠ none → keysym ∈ values s.keyboard.held)) :=
      Option.decidableForallMem _
    inferInstanceAs (Decidable (if stroke.pressed then _ else _))
  | .elsewhere _ => inferInstanceAs (Decidable (_ → _))
  | .releaseAll _ | .focusLost _ => isTrue trivial

/-! ## Ids -/

end Desk

/-- The ids handed out are the first numbers, each to one key. -/
structure KeyIds.Distinct (s : KeyIds κ) : Prop where
  numbered : ∀ key id, s.ids.lookup key = some id → ∃ n, n < s.ids.entries.length ∧ id = Int64.ofNat n + 1
  inj : ∀ key key' id, s.ids.lookup key = some id → s.ids.lookup key' = some id → key = key'

theorem ofNat_succ_inj {n m : Nat} (hn : n < 2 ^ 63) (hm : m < 2 ^ 63) (h : Int64.ofNat n + 1 = Int64.ofNat m + 1) :
    n = m := by
  have hbits : (Int64.ofNat n).toBitVec = (Int64.ofNat m).toBitVec := by
    have hadd := congrArg Int64.toBitVec h
    rw [Int64.toBitVec_add, Int64.toBitVec_add] at hadd
    exact (BitVec.add_left_inj _).1 hadd
  rw [Int64.toBitVec_ofNat', Int64.toBitVec_ofNat'] at hbits
  have hnat := congrArg BitVec.toNat hbits
  rw [BitVec.toNat_ofNat, BitVec.toNat_ofNat] at hnat
  omega

omit [DecidableEq κ] in
/-- There are no more ids than keys. -/
theorem length_le_card [Fintype κ] (m : AList fun _ : κ => Int64) : m.entries.length ≤ Fintype.card κ := by
  have hnodup : m.keys.Nodup := m.nodupKeys
  have hlen := hnodup.length_le_card
  rwa [AList.keys, List.keys, List.length_map] at hlen

/-- A key has its id from the first time on, and no other key's is changed. -/
theorem KeyIds.Distinct.id [Fintype κ] (hκ : Fintype.card κ < 2 ^ 63) {s : KeyIds κ} (h : s.Distinct) (key : κ) :
    (s.id key).2.Distinct ∧ (s.id key).2.ids.lookup key = some (s.id key).1 ∧
      ∀ key', key' ≠ key → (s.id key).2.ids.lookup key' = s.ids.lookup key' := by
  unfold KeyIds.id
  split
  · next i hi => exact ⟨h, hi, fun _ _ => rfl⟩
  · next hnone =>
    have hlen : s.ids.entries.length < 2 ^ 63 := Nat.lt_of_le_of_lt (length_le_card s.ids) hκ
    have hentries : (s.ids.insert key (Int64.ofNat s.ids.entries.length + 1)).entries.length = s.ids.entries.length + 1 := by
      rw [AList.entries_insert_of_notMem (AList.lookup_eq_none.1 hnone), List.length_cons]
    have hnew : ∀ key', s.ids.lookup key' ≠ some (Int64.ofNat s.ids.entries.length + 1) := by
      intro key' hkey'
      obtain ⟨n, hn, heq⟩ := h.numbered key' _ hkey'
      have := ofNat_succ_inj hlen (by omega) heq
      omega
    refine ⟨⟨?_, ?_⟩, AList.lookup_insert _, fun key' hne => AList.lookup_insert_ne hne⟩
    · intro key' i hi
      dsimp only at hi ⊢
      rw [hentries]
      by_cases hkey : key' = key
      · rw [hkey, AList.lookup_insert] at hi
        exact ⟨_, Nat.lt_succ_self _, (Option.some.inj hi).symm⟩
      · rw [AList.lookup_insert_ne hkey] at hi
        obtain ⟨n, hn, heq⟩ := h.numbered key' i hi
        exact ⟨n, Nat.lt_succ_of_lt hn, heq⟩
    · intro key' key'' i hi hi'
      dsimp only at hi hi'
      by_cases hkey : key' = key
      · by_cases hkey' : key'' = key
        · rw [hkey, hkey']
        · rw [hkey, AList.lookup_insert] at hi
          rw [AList.lookup_insert_ne hkey', ← hi] at hi'
          exact absurd hi' (hnew key'')
      · rw [AList.lookup_insert_ne hkey] at hi
        by_cases hkey' : key'' = key
        · rw [hkey', AList.lookup_insert] at hi'
          rw [← hi'] at hi
          exact absurd hi (hnew key')
        · rw [AList.lookup_insert_ne hkey'] at hi'
          exact h.inj key' key'' i hi hi'

namespace Desk

/-! ## What an event does -/

def press (s : Desk κ) (physical : κ) (keysym : UInt32) : Desk κ :=
  ⟨(s.keyboard.press physical keysym).1, s.far.keyDown keysym (s.keyboard.ids.id physical).1⟩

def up (s : Desk κ) (physical : κ) : Desk κ :=
  ⟨⟨(s.keyboard.ids.id physical).2, s.keyboard.held.erase physical⟩, s.far.keyUp (s.keyboard.ids.id physical).1⟩

def clear (s : Desk κ) (order : List UInt32) : Desk κ := ⟨⟨s.keyboard.ids, ∅⟩, s.far.releaseAllKeys order⟩

variable {s s' : Desk κ} {e : Event κ}

theorem up_some {physical : κ} (hs : (hear s.far [] (s.keyboard.up physical).2).map (⟨(s.keyboard.up physical).1, ·⟩) = some s') :
    (∃ k, s.keyboard.held.lookup physical = some k ∧ s' = s.up physical) ∨
      (s.keyboard.held.lookup physical = none ∧ s' = s) := by
  unfold Keyboard.up at hs
  split at hs
  · next k hk =>
    cases hs
    exact .inl ⟨k, hk, rfl⟩
  · next hnone =>
    cases hs
    exact .inr ⟨hnone, rfl⟩

theorem releaseAll_some {order : List UInt32}
    (hs : (hear s.far order s.keyboard.releaseAll.2).map (⟨s.keyboard.releaseAll.1, ·⟩) = some s') :
    (order.Perm s.far.keysyms ∧ s' = s.clear order) ∨ (s.keyboard.held.entries = [] ∧ s' = s) := by
  unfold Keyboard.releaseAll at hs
  split at hs
  · next hnil =>
    cases hs
    exact .inr ⟨hnil, rfl⟩
  · simp only [hear, Keys.step] at hs
    split at hs
    · next ho =>
      cases hs
      exact .inl ⟨ho, rfl⟩
    · cases hs

/-- What happens on an event: a key goes down, one goes up, all do, or nothing. -/
theorem step_cases (hs : s.step e = some s') :
    (∃ stroke captured keysym, e = .key stroke captured ∧ stroke.pressed = true ∧ stroke.keysym = some keysym ∧
        (stroke.isRepeat = true → s.keyboard.held.lookup stroke.physical ≠ none) ∧ s' = s.press stroke.physical keysym) ∨
      (∃ stroke k, e.stroke? = some stroke ∧ stroke.pressed = false ∧ s.keyboard.held.lookup stroke.physical = some k ∧
        s' = s.up stroke.physical) ∨
      (∃ order, (e = .releaseAll order ∨ e = .focusLost order) ∧ order.Perm s.far.keysyms ∧ s' = s.clear order) ∨
      (s' = s ∧ (∀ stroke, e.stroke? = some stroke → stroke.pressed = false → s.keyboard.held.lookup stroke.physical = none) ∧
        (e.stroke? = none → s.keyboard.held.entries = [])) := by
  cases e with
  | key stroke captured =>
    simp only [step, Keyboard.key] at hs
    split at hs
    · next hup =>
      rw [Bool.not_eq_true'] at hup
      rcases up_some hs with ⟨k, hk, rfl⟩ | ⟨hnone, rfl⟩
      · exact .inr (.inl ⟨stroke, k, rfl, hup, hk, rfl⟩)
      · refine .inr (.inr (.inr ⟨rfl, ?_, by simp [Event.stroke?]⟩))
        rintro stroke' ⟨⟩ -
        exact hnone
    · next hdown =>
      rw [Bool.not_eq_true', Bool.not_eq_false] at hdown
      split at hs
      · split at hs
        · next keysym hfilter =>
          cases hs
          rw [Option.filter_eq_some_iff] at hfilter
          refine .inl ⟨stroke, captured, keysym, rfl, hdown, hfilter.1, fun _ hnone => ?_, rfl⟩
          rw [hnone] at hfilter
          cases hfilter.2
        · cases hs
          exact .inr (.inr (.inr ⟨rfl, by simp [Event.stroke?, hdown], by simp [Event.stroke?]⟩))
      · next hrepeat =>
        split at hs
        · next keysym hkeysym =>
          cases hs
          exact .inl ⟨stroke, captured, keysym, rfl, hdown, hkeysym, fun h => absurd h hrepeat, rfl⟩
        · cases hs
          exact .inr (.inr (.inr ⟨rfl, by simp [Event.stroke?, hdown], by simp [Event.stroke?]⟩))
  | elsewhere stroke =>
    simp only [step, Keyboard.elsewhere] at hs
    split at hs
    · next hup =>
      rw [Bool.not_eq_true'] at hup
      rcases up_some hs with ⟨k, hk, rfl⟩ | ⟨hnone, rfl⟩
      · exact .inr (.inl ⟨stroke, k, rfl, hup, hk, rfl⟩)
      · refine .inr (.inr (.inr ⟨rfl, ?_, by simp [Event.stroke?]⟩))
        rintro stroke' ⟨⟩ -
        exact hnone
    · next hdown =>
      cases hs
      rw [Bool.not_eq_true', Bool.not_eq_false] at hdown
      exact .inr (.inr (.inr ⟨rfl, by simp [Event.stroke?, hdown], by simp [Event.stroke?]⟩))
  | releaseAll order =>
    rcases releaseAll_some hs with ⟨ho, rfl⟩ | ⟨hnil, rfl⟩
    · exact .inr (.inr (.inl ⟨order, .inl rfl, ho, rfl⟩))
    · exact .inr (.inr (.inr ⟨rfl, by simp [Event.stroke?], fun _ => hnil⟩))
  | focusLost order =>
    rcases releaseAll_some hs with ⟨ho, rfl⟩ | ⟨hnil, rfl⟩
    · exact .inr (.inr (.inl ⟨order, .inr rfl, ho, rfl⟩))
    · exact .inr (.inr (.inr ⟨rfl, by simp [Event.stroke?], fun _ => hnil⟩))

/-! ## Which keys are down -/

end Desk

def Event.Presses (e : Event κ) (key : κ) : Prop :=
  ∃ stroke, e.stroke? = some stroke ∧ stroke.physical = key ∧ stroke.pressed = true

def Event.Lifts (e : Event κ) (key : κ) : Prop :=
  ∃ stroke, e.stroke? = some stroke ∧ stroke.physical = key ∧ stroke.pressed = false

/-- The physical key was pressed and has not been released since. -/
def StillDown (events : List (Event κ)) (key : κ) : Prop :=
  ∃ pre e post, events = pre ++ e :: post ∧ e.Presses key ∧ ∀ e' ∈ post, ¬e'.Lifts key

omit [DecidableEq κ] in
theorem stillDown_snoc {events : List (Event κ)} {e : Event κ} {key : κ} :
    StillDown (events ++ [e]) key ↔ e.Presses key ∨ (StillDown events key ∧ ¬e.Lifts key) := by
  constructor
  · rintro ⟨pre, e', post, heq, hpress, hpost⟩
    rcases snoc_eq_append_cons.1 heq with ⟨-, rfl, -⟩ | ⟨post', rfl, rfl⟩
    · exact .inl hpress
    · simp only [List.mem_append, List.mem_singleton] at hpost
      exact .inr ⟨⟨pre, e', post', rfl, hpress, fun x hx => hpost x (.inl hx)⟩, hpost e (.inr rfl)⟩
  · rintro (hpress | ⟨⟨pre, e', post, rfl, hpress, hpost⟩, hlift⟩)
    · exact ⟨events, e, [], rfl, hpress, by simp⟩
    · refine ⟨pre, e', post ++ [e], by simp, hpress, ?_⟩
      simp only [List.mem_append, List.mem_singleton]
      rintro x (hx | rfl)
      · exact hpost x hx
      · exact hlift

namespace Desk

variable {s s' : Desk κ} {e : Event κ}

/-! ## The two maps -/

/-- The client's map is the keyboard's, by the ids of its keys. -/
structure Paired (s : Desk κ) : Prop where
  on : s.far.viewOnly = false
  distinct : s.keyboard.ids.Distinct
  there : ∀ key k, s.keyboard.held.lookup key = some k →
    ∃ id, s.keyboard.ids.ids.lookup key = some id ∧ s.far.held.lookup id = some k
  back : ∀ id k, s.far.held.lookup id = some k →
    ∃ key, s.keyboard.ids.ids.lookup key = some id ∧ s.keyboard.held.lookup key = some k

theorem paired_start : (start : Desk κ).Paired where
  on := rfl
  distinct := ⟨fun key id h => by simp [start, Keyboard.start] at h, fun key key' id h => by simp [start, Keyboard.start] at h⟩
  there key k h := by simp [start, Keyboard.start] at h
  back id k h := by simp [start, Keys.start] at h

variable [Fintype κ]

theorem Paired.press (hκ : Fintype.card κ < 2 ^ 63) (h : s.Paired) (physical : κ) (keysym : UInt32) :
    (s.press physical keysym).Paired := by
  obtain ⟨hdistinct, hid, hother⟩ := h.distinct.id hκ physical
  have hfar : (s.press physical keysym).far =
      { s.far with held := s.far.held.insert (s.keyboard.ids.id physical).1 keysym, sent := s.far.sent ++ [⟨keysym, true⟩] } := by
    simp [Desk.press, Keys.keyDown, h.on]
  constructor
  · rw [hfar]
    exact h.on
  · exact hdistinct
  · intro key k hk
    rw [hfar]
    by_cases hkey : key = physical
    · subst hkey
      have hk' : (s.keyboard.held.insert key keysym).lookup key = some k := hk
      rw [AList.lookup_insert] at hk'
      exact ⟨_, hid, (AList.lookup_insert _).trans hk'⟩
    · have hk' : (s.keyboard.held.insert physical keysym).lookup key = some k := hk
      rw [AList.lookup_insert_ne hkey] at hk'
      obtain ⟨i, hi, hheld⟩ := h.there key k hk'
      have hne : i ≠ (s.keyboard.ids.id physical).1 := by
        rintro rfl
        exact hkey (hdistinct.inj key physical _ ((hother key hkey).trans hi) hid)
      exact ⟨i, (hother key hkey).trans hi, (AList.lookup_insert_ne hne).trans hheld⟩
  · intro i k hi
    rw [hfar] at hi
    dsimp only at hi
    by_cases hne : i = (s.keyboard.ids.id physical).1
    · rw [hne, AList.lookup_insert] at hi
      exact ⟨physical, hne ▸ hid, (AList.lookup_insert _).trans hi⟩
    · rw [AList.lookup_insert_ne hne] at hi
      obtain ⟨key, hkey, hheld⟩ := h.back i k hi
      have hphysical : key ≠ physical := by
        rintro rfl
        apply hne
        unfold KeyIds.id
        rw [hkey]
      exact ⟨key, (hother key hphysical).trans hkey, (AList.lookup_insert_ne hphysical).trans hheld⟩

omit [Fintype κ] in
/-- The id of a key that is down is the one it went down under. -/
theorem Paired.id_of_held (h : s.Paired) {physical : κ} {k : UInt32} (hk : s.keyboard.held.lookup physical = some k) :
    (s.keyboard.ids.id physical).2 = s.keyboard.ids ∧ s.keyboard.ids.ids.lookup physical = some (s.keyboard.ids.id physical).1 ∧
      s.far.held.lookup (s.keyboard.ids.id physical).1 = some k := by
  obtain ⟨i, hi, hheld⟩ := h.there physical k hk
  unfold KeyIds.id
  rw [hi]
  exact ⟨rfl, rfl, hheld⟩

omit [Fintype κ] in
theorem Paired.up_far (h : s.Paired) {physical : κ} {k : UInt32} (hk : s.keyboard.held.lookup physical = some k) :
    (s.up physical).far =
      { s.far with held := s.far.held.erase (s.keyboard.ids.id physical).1, sent := s.far.sent ++ [⟨k, false⟩] } := by
  simp [Desk.up, Keys.keyUp, h.on, (h.id_of_held hk).2.2]

omit [Fintype κ] in
theorem Paired.up (h : s.Paired) {physical : κ} {k : UInt32} (hk : s.keyboard.held.lookup physical = some k) :
    (s.up physical).Paired := by
  obtain ⟨hids, hid, -⟩ := h.id_of_held hk
  have hids' : (s.up physical).keyboard.ids = s.keyboard.ids := hids
  constructor
  · rw [h.up_far hk]
    exact h.on
  · rw [hids']
    exact h.distinct
  · intro key k' hk'
    rw [h.up_far hk, hids']
    have hne : key ≠ physical := by
      rintro rfl
      have herase : (s.keyboard.held.erase key).lookup key = some k' := hk'
      rw [AList.lookup_erase] at herase
      cases herase
    have hk'' : (s.keyboard.held.erase physical).lookup key = some k' := hk'
    rw [AList.lookup_erase_ne hne] at hk''
    obtain ⟨i, hi, hheld⟩ := h.there key k' hk''
    refine ⟨i, hi, (AList.lookup_erase_ne ?_).trans hheld⟩
    rintro rfl
    exact hne (h.distinct.inj key physical _ hi hid)
  · intro i k' hi
    rw [h.up_far hk] at hi
    dsimp only at hi
    have hne : i ≠ (s.keyboard.ids.id physical).1 := by
      rintro rfl
      rw [AList.lookup_erase] at hi
      cases hi
    rw [AList.lookup_erase_ne hne] at hi
    obtain ⟨key, hkey, hheld⟩ := h.back i k' hi
    have hphysical : key ≠ physical := by
      rintro rfl
      exact hne (Option.some.inj (hkey.symm.trans hid))
    exact ⟨key, hids' ▸ hkey, (AList.lookup_erase_ne hphysical).trans hheld⟩

omit [Fintype κ] in
theorem Paired.clear (h : s.Paired) (order : List UInt32) : (s.clear order).Paired where
  on := h.on
  distinct := h.distinct
  there key k hk := by simp [Desk.clear] at hk
  back id k hk := by simp [Desk.clear, Keys.releaseAllKeys] at hk

theorem paired_step (hκ : Fintype.card κ < 2 ^ 63) (h : s.Paired) (hs : s.step e = some s') : s'.Paired := by
  rcases step_cases hs with ⟨stroke, captured, keysym, -, -, -, -, rfl⟩ | ⟨stroke, k, -, -, hk, rfl⟩ | ⟨order, -, -, rfl⟩ | ⟨rfl, -⟩
  · exact h.press hκ stroke.physical keysym
  · exact h.up hk
  · exact h.clear order
  · exact h

/-! ## What the server has down -/

/-- The keysyms that the server has down are those of the keys held. -/
def Alike (s : Desk κ) : Prop := ∀ k, Unreleased s.far.sent k ↔ k ∈ values s.keyboard.held

omit [Fintype κ] in
theorem Paired.mem_keysyms (h : s.Paired) (k : UInt32) : k ∈ s.far.keysyms ↔ k ∈ values s.keyboard.held := by
  rw [Keys.mem_keysyms, mem_values]
  constructor
  · rintro ⟨id, hid⟩
    obtain ⟨key, -, hkey⟩ := h.back id k hid
    exact ⟨key, hkey⟩
  · rintro ⟨key, hkey⟩
    obtain ⟨id, -, hid⟩ := h.there key k hkey
    exact ⟨id, hid⟩

omit [Fintype κ] in
theorem Alike.press (h : s.Alike) (hp : s.Paired) {physical : κ} {keysym : UInt32}
    (hk : Keeps s.keyboard.held physical keysym) : (s.press physical keysym).Alike := by
  intro k
  have hsent : (s.press physical keysym).far.sent = s.far.sent ++ [⟨keysym, true⟩] := by
    simp [Desk.press, Keys.keyDown, hp.on]
  have hheld : (s.press physical keysym).keyboard.held = s.keyboard.held.insert physical keysym := rfl
  rw [hsent, hheld, unreleased_press, mem_values_insert, h k, mem_values]
  refine or_congr_right' fun hne => ⟨?_, ?_⟩
  swap
  · rintro ⟨key, -, hkey⟩
    exact ⟨key, hkey⟩
  rintro ⟨key, hkey⟩
  by_cases hphysical : key = physical
  · subst hphysical
    exact exists_other_iff.1 (hk k hkey hne)
  · exact ⟨key, hphysical, hkey⟩

omit [Fintype κ] in
theorem Alike.up (h : s.Alike) (hp : s.Paired) {physical : κ} {k : UInt32} (hk : s.keyboard.held.lookup physical = some k)
    (halone : Alone s.keyboard.held physical) : (s.up physical).Alike := by
  intro x
  have hheld : (s.up physical).keyboard.held = s.keyboard.held.erase physical := rfl
  rw [hp.up_far hk, hheld, mem_values_erase]
  dsimp only
  rw [unreleased_snoc, h x, mem_values]
  simp only [KeyEvent.mk.injEq, Bool.false_eq_true, and_false, and_true, false_or, ne_eq]
  constructor
  · rintro ⟨hne, key, hkey⟩
    refine ⟨key, ?_, hkey⟩
    rintro rfl
    exact hne (Option.some.inj (hk.symm.trans hkey))
  · rintro ⟨key, hne, hkey⟩
    exact ⟨fun heq => halone k hk ⟨key, x⟩ (AList.mem_lookup_iff.1 hkey) hne heq.symm, key, hkey⟩

omit [Fintype κ] in
theorem Alike.clear (h : s.Alike) (hp : s.Paired) {order : List UInt32} (ho : order.Perm s.far.keysyms) : (s.clear order).Alike := by
  intro k
  have hheld : values (s.clear order).keyboard.held = [] := rfl
  have hsent : (s.clear order).far.sent = s.far.sent ++ order.map (⟨·, false⟩) := rfl
  rw [hsent, hheld, unreleased_releases, h k, ho.mem_iff, hp.mem_keysyms]
  simp

omit [Fintype κ] in
theorem alike_start : (start : Desk κ).Alike := by
  intro k
  refine iff_of_false ?_ (by simp [start, Keyboard.start])
  rintro ⟨pre, post, heq, -⟩
  exact List.append_ne_nil_of_right_ne_nil pre (List.cons_ne_nil _ post) heq.symm

omit [Fintype κ] in
theorem alike_step (h : s.Alike) (hp : s.Paired) (hc : s.Spares e) (hs : s.step e = some s') : s'.Alike := by
  rcases step_cases hs with ⟨stroke, captured, keysym, rfl, hdown, hkeysym, -, rfl⟩ | ⟨stroke, k, he, hup, hk, rfl⟩ |
    ⟨order, -, ho, rfl⟩ | ⟨rfl, -⟩
  · simp only [Spares, hdown, if_true] at hc
    exact h.press hp (hc keysym hkeysym).1
  · refine h.up hp hk ?_
    cases e with
    | key stroke' captured =>
      cases he
      simpa [Spares, hup] using hc
    | elsewhere stroke' =>
      cases he
      exact hc hup
    | releaseAll order => cases he
    | focusLost order => cases he
  · exact h.clear hp ho
  · exact h

/-! ## Over a run -/

omit [Fintype κ] in
/-- A repeat that is handed on presses what some key is down as. -/
theorem repeat_down (h : s.Alike) (hp : s.Paired) {stroke : Stroke κ} {captured : Bool} (hdown : stroke.pressed = true)
    (hrepeat : stroke.isRepeat = true) (hc : s.Spares (.key stroke captured))
    (hs : s.step (.key stroke captured) = some s') :
    s'.far.sent = s.far.sent ∨ ∃ k, Unreleased s.far.sent k ∧ s'.far.sent = s.far.sent ++ [⟨k, true⟩] := by
  rcases step_cases hs with ⟨stroke', captured', keysym, he, -, hkeysym, hheld, rfl⟩ | ⟨stroke', k, he, hup, -, -⟩ |
    ⟨order, he | he, -, -⟩ | ⟨rfl, -⟩
  · cases he
    simp only [Spares, hdown, if_true] at hc
    refine .inr ⟨keysym, (h keysym).2 ((hc keysym hkeysym).2 hrepeat (hheld hrepeat)), ?_⟩
    simp [Desk.press, Keys.keyDown, hp.on]
  · cases he
    rw [hup] at hdown
    cases hdown
  · cases he
  · cases he
  · exact .inl rfl

omit [Fintype κ] in
/-- The keyboard has a key down only until its release. -/
theorem stillDown_step {tr : List (Event κ)} (h : ∀ key k, s.keyboard.held.lookup key = some k → StillDown tr key)
    (hs : s.step e = some s') (key : κ) (k : UInt32) (hk : s'.keyboard.held.lookup key = some k) :
    StillDown (tr ++ [e]) key := by
  rcases step_cases hs with ⟨stroke, captured, keysym, rfl, hdown, -, -, rfl⟩ | ⟨stroke, k', he, hup, -, rfl⟩ |
    ⟨order, -, -, rfl⟩ | ⟨rfl, hlift, -⟩
  · by_cases hkey : key = stroke.physical
    · exact stillDown_snoc.2 (.inl ⟨stroke, rfl, hkey.symm, hdown⟩)
    · have hk' : (s.keyboard.held.insert stroke.physical keysym).lookup key = some k := hk
      rw [AList.lookup_insert_ne hkey] at hk'
      refine stillDown_snoc.2 (.inr ⟨h key k hk', ?_⟩)
      rintro ⟨stroke', ⟨⟩, -, hup⟩
      rw [hdown] at hup
      cases hup
  · have hk' : (s.keyboard.held.erase stroke.physical).lookup key = some k := hk
    have hne : key ≠ stroke.physical := by
      rintro rfl
      rw [AList.lookup_erase] at hk'
      cases hk'
    rw [AList.lookup_erase_ne hne] at hk'
    refine stillDown_snoc.2 (.inr ⟨h key k hk', ?_⟩)
    rintro ⟨stroke', he', hphysical, -⟩
    cases he.symm.trans he'
    exact hne hphysical.symm
  · have hk' : (∅ : AList fun _ : κ => UInt32).lookup key = some k := hk
    simp at hk'
  · refine stillDown_snoc.2 (.inr ⟨h key k hk, ?_⟩)
    rintro ⟨stroke, he, rfl, hup⟩
    rw [hlift stroke he hup] at hk
    cases hk

/-- In a run whose events lose no keysym, the server has down what the keyboard holds after each of them. -/
theorem alike_run (hκ : Fintype.card κ < 2 ^ 63) {events : List (Event κ)} (hm : Meets step Spares start events)
    (hr : run step start events = some s) :
    s.Paired ∧ s.Alike ∧ ∀ key k, s.keyboard.held.lookup key = some k → StillDown events key := by
  refine trace_inv (fun tr t => t.Paired ∧ t.Alike ∧ ∀ key k, t.keyboard.held.lookup key = some k → StillDown tr key)
    ⟨paired_start, alike_start, ?_⟩ ?_ hm hr
  · intro key k hk
    simp [start, Keyboard.start] at hk
  · rintro tr t e t' ⟨hpaired, halike, hstill⟩ hc hs
    exact ⟨paired_step hκ hpaired hs, alike_step halike hpaired hc hs, stillDown_step hstill hs⟩

omit [Fintype κ] in
/-- Once the focus is lost nothing is held. -/
theorem focusLost_held {order : List UInt32} (hs : s.step (.focusLost order) = some s') : values s'.keyboard.held = [] := by
  rcases step_cases hs with ⟨stroke, captured, keysym, he, -⟩ | ⟨stroke, k, he, -⟩ | ⟨order', -, -, rfl⟩ | ⟨rfl, -, hnil⟩
  · cases he
  · cases he
  · rfl
  · rw [values, hnil rfl, List.map_nil]

/-- In every run whose events lose no keysym, the server has the keysyms of the held keys down, a repeat presses what
is down already, and nothing is down once every key has come up or the focus is lost. -/
theorem keyboard_alike (hκ : Fintype.card κ < 2 ^ 63) (events : List (Event κ)) (s : Desk κ)
    (hm : Meets step Spares start events) (hr : run step start events = some s) :
    (∀ k, Unreleased s.far.sent k ↔ k ∈ values s.keyboard.held) ∧
      (∀ pre stroke captured post t t', events = pre ++ .key stroke captured :: post → stroke.pressed = true →
        stroke.isRepeat = true → run step start pre = some t → t.step (.key stroke captured) = some t' →
        t'.far.sent = t.far.sent ∨ ∃ k, Unreleased t.far.sent k ∧ t'.far.sent = t.far.sent ++ [⟨k, true⟩]) ∧
      ((∀ key, ¬StillDown events key) → ∀ k, ¬Unreleased s.far.sent k) ∧
      (∀ pre order, events = pre ++ [.focusLost order] → ∀ k, ¬Unreleased s.far.sent k) := by
  obtain ⟨-, halike, hstill⟩ := alike_run hκ hm hr
  refine ⟨halike, ?_, ?_, ?_⟩
  · intro pre stroke captured post t t' heq hdown hrepeat ht ht'
    rw [heq] at hm
    obtain ⟨hpaired, halike', -⟩ := alike_run hκ hm.append_left ht
    exact repeat_down halike' hpaired hdown hrepeat (hm.append_right ht).1 ht'
  · intro hup k hk
    obtain ⟨key, hkey⟩ := mem_values.1 ((halike k).1 hk)
    exact hup key (hstill key k hkey)
  · rintro pre order rfl k hk
    obtain ⟨t, -, hlast⟩ := run_append_some hr
    obtain ⟨t', ht', hnil⟩ := run_cons_some hlast
    cases hnil
    have hmem := (halike k).1 hk
    rw [focusLost_held ht'] at hmem
    exact absurd hmem List.not_mem_nil

/-- A capital typed with Shift and repeated, its letter let go of while the window has the keyboard, and the focus lost. -/
def capital : List (Event Bool) :=
  [.key ⟨false, true, false, some 0xffe1⟩ false, .key ⟨true, true, false, some 0x41⟩ false, .key ⟨true, true, true, some 0x41⟩ false,
    .elsewhere ⟨true, false, false, some 0x41⟩, .focusLost [0xffe1]]

theorem keyboard_alike_capital : ∃ s, run step start capital = some s ∧ ∀ k, ¬Unreleased s.far.sent k := by
  obtain ⟨s, hs⟩ : ∃ s, run step start capital = some s := ⟨_, rfl⟩
  exact ⟨s, hs, (keyboard_alike (by decide) capital s (by decide +kernel) hs).2.2.2 (capital.take 4) [0xffe1] rfl⟩

/-- Shift goes down while a letter repeats: it is let go of as the capital it repeated as, and the letter stays
down at the server with every key up. -/
theorem repeat_shifted_sticks :
    let events : List (Event Bool) := [.key ⟨false, true, false, some 0x61⟩ false, .key ⟨true, true, false, some 0xffe1⟩ false,
      .key ⟨false, true, true, some 0x41⟩ false, .key ⟨false, false, false, some 0x41⟩ false, .key ⟨true, false, false, some 0xffe1⟩ false]
    ∃ s, run step start events = some s ∧ s.keyboard.held.entries = [] ∧ Unreleased s.far.sent 0x61 :=
  ⟨_, rfl, rfl, [], [⟨0xffe1, true⟩, ⟨0x41, true⟩, ⟨0x41, false⟩, ⟨0xffe1, false⟩], rfl, by decide⟩

end Desk

end Vento.Linux
