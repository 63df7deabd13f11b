import Vento.Lib.Held
import Vento.Ironrdp.Keymap
import Vento.Runtime.Input
/-!
# Keys and buttons of an RDP client

`ironrdp/src/client.rs`: the input calls, as operations on IronRDP's `Database`, which keeps what is
pressed and makes the events. The database is a parameter (`Database`), and `Documented` what its
documentation says of it: an operation presses or releases, and one that changes nothing makes no event.
-/

namespace Vento.Ironrdp

open Vento.Lib Vento.Input

inductive MouseButton where
  | left | middle | right | x1 | x2
deriving DecidableEq, Repr

/-- What can be down at the far end. -/
inductive Press where
  | key (code : Scancode)
  /-- A key marked `E1`, which the database does not know. -/
  | e1 (code : UInt8)
  | unicode (ch : Char)
  | button (button : MouseButton)
deriving DecidableEq, Repr

inductive Operation where
  | mouseMove (x y : UInt16)
  | mouseButtonPressed (button : MouseButton)
  | mouseButtonReleased (button : MouseButton)
  | wheelRotations (vertical : Bool) (units : Int)
  | keyPressed (code : Scancode)
  | keyReleased (code : Scancode)
  | unicodeKeyPressed (ch : Char)
  | unicodeKeyReleased (ch : Char)
deriving DecidableEq, Repr

namespace Operation

/-- As the far end is to hear it. -/
def stroke : Operation → Stroke Press
  | .mouseMove _ _ | .wheelRotations _ _ => .other
  | .mouseButtonPressed b => .press (.button b)
  | .mouseButtonReleased b => .release (.button b)
  | .keyPressed code => .press (.key code)
  | .keyReleased code => .release (.key code)
  | .unicodeKeyPressed ch => .press (.unicode ch)
  | .unicodeKeyReleased ch => .release (.unicode ch)

end Operation

/-- Whether `p` is pressed after operations that found it so or not. -/
def pressedAfter (p : Press) (was : Bool) (ops : List Operation) : Bool :=
  ops.foldl (fun b op => if op.stroke = .press p then true else if op.stroke = .release p then false else b) was

/-- `ironrdp_input::Database`, with what the far end hears of the events it makes. -/
structure Database where
  State : Type
  new : State
  apply : State → List Operation → State × List (Stroke Press)
  pressed : State → Press → Bool

/-- What the client relies on: the database follows the operations, the far end that has nothing down but what
the database knows stays so, and no event is made of what no operation says. -/
structure Documented (db : Database) : Prop where
  new_pressed : ∀ p, db.pressed db.new p = false
  apply_pressed : ∀ st ops p, db.pressed (db.apply st ops).1 p = pressedAfter p (db.pressed st p) ops
  apply_down : ∀ st ops (sent : List (Stroke Press)), (∀ p, Down sent p → db.pressed st p = true) →
    ∀ p, Down (sent ++ (db.apply st ops).2) p → db.pressed (db.apply st ops).1 p = true
  apply_told : ∀ st ops, ∀ e ∈ (db.apply st ops).2, (∃ p, e = .release p) ∨ ∃ op ∈ ops, op.stroke = e

/-! ## The client -/

structure Held where
  key : Key
  /-- This client pressed Shift for it. -/
  syntheticShift : Bool
deriving DecidableEq, Repr

/-- What releases a held key. -/
def release (held : Held) : List Operation :=
  match held.key with
  | .scancode code _ => .keyReleased code :: if held.syntheticShift then [.keyReleased shift] else []
  | .unicode ch => [.unicodeKeyReleased ch]
  | .pause => []

structure Client (db : Database) where
  held : AList fun _ : Int64 => Held
  buttons : UInt16
  viewOnly : Bool
  input : db.State
  sent : List (Stroke Press)

/-- The bits of the mask that are buttons. -/
def buttonBits : List (UInt16 × MouseButton) := [(0x01, .left), (0x02, .middle), (0x04, .right), (0x80, .x1), (0x100, .x2)]

def wheelUnits : Int := 120

/-- The bits that are notches of the wheel. -/
def wheelBits : List (UInt16 × Bool × Int) :=
  [(0x08, true, wheelUnits), (0x10, true, -wheelUnits), (0x20, false, -wheelUnits), (0x40, false, wheelUnits)]

/-- What a button's bit changed to. -/
def edge (mask previous : UInt16) (b : UInt16 × MouseButton) : Option Operation :=
  let now := mask &&& b.1 ≠ 0
  let was := previous &&& b.1 ≠ 0
  if now ∧ ¬was then some (.mouseButtonPressed b.2)
  else if ¬now ∧ was then some (.mouseButtonReleased b.2)
  else none

def notch (mask previous : UInt16) (b : UInt16 × Bool × Int) : Option Operation :=
  if mask &&& b.1 ≠ 0 ∧ previous &&& b.1 = 0 then some (.wheelRotations b.2.1 b.2.2) else none

/-- The four events that are Pause. -/
def pauseEvents : List (Stroke Press) :=
  [.press (.e1 0x1d), .press (.key (plain 0x45)), .release (.e1 0x1d), .release (.key (plain 0x45))]

namespace Client

variable {db : Database}

def start (db : Database) : Client db := ⟨∅, 0, false, db.new, []⟩

def shiftIsDown (s : Client db) : Bool := db.pressed s.input (.key shift) || db.pressed s.input (.key rightShift)

def apply (s : Client db) (ops : List Operation) : Client db :=
  if ops = [] then s
  else { s with input := (db.apply s.input ops).1, sent := s.sent ++ (db.apply s.input ops).2 }

def sendPause (s : Client db) : Client db := { s with sent := s.sent ++ pauseEvents }

def pointer (s : Client db) (x y mask : UInt16) : Client db :=
  if s.viewOnly then s
  else
    ({ s with buttons := mask } : Client db).apply
      (.mouseMove x y :: buttonBits.filterMap (edge mask s.buttons) ++ wheelBits.filterMap (notch mask s.buttons))

def keyDown (s : Client db) (keysym : UInt32) (id : Int64) : Client db :=
  if s.viewOnly then s
  else
    match scancode keysym with
    | none => s
    | some key =>
      -- a key that repeats keeps the Shift that was pressed for it
      let synthetic := (s.held.lookup id).any Held.syntheticShift
      match key with
      | .scancode code needs =>
        let added := needs && !synthetic && !s.shiftIsDown
        ({ s with held := s.held.insert id ⟨key, synthetic || added⟩ } : Client db).apply
          ((if added then [.keyPressed shift] else []) ++ [.keyPressed code])
      | .unicode ch => ({ s with held := s.held.insert id ⟨key, synthetic⟩ } : Client db).apply [.unicodeKeyPressed ch]
      | .pause => ({ s with held := s.held.insert id ⟨key, synthetic⟩ } : Client db).sendPause

def keyUp (s : Client db) (id : Int64) : Client db :=
  if s.viewOnly then s
  else
    match s.held.lookup id with
    | none => s
    | some held => ({ s with held := s.held.erase id } : Client db).apply (release held)

def releaseAllKeys (s : Client db) (order : List Held) : Client db :=
  ({ s with held := ∅ } : Client db).apply (order.flatMap release)

def step (s : Client db) : Call (UInt16 × UInt16) (List Held) → Option (Client db)
  | .keyDown keysym id => some (s.keyDown keysym id)
  | .keyUp id => some (s.keyUp id)
  | .releaseAllKeys order => if order.Perm (values s.held) then some (s.releaseAllKeys order) else none
  | .pointer at_ mask => some (s.pointer at_.1 at_.2 mask)
  | .setViewOnly viewOnly => some { s with viewOnly }

end Client

/-! ## What is pressed and whose it is -/

/-- What a held key's release releases. -/
def Held.presses (held : Held) : List Press :=
  match held.key with
  | .scancode code _ => .key code :: if held.syntheticShift then [.key shift] else []
  | .unicode ch => [.unicode ch]
  | .pause => []

theorem release_strokes (held : Held) : (release held).map Operation.stroke = held.presses.map .release := by
  obtain ⟨key, synthetic⟩ := held
  cases key with
  | scancode code needs => cases synthetic <;> rfl
  | unicode ch => rfl
  | pause => rfl

theorem presses_mono {key : Key} {synthetic added : Bool} {p : Press} (h : p ∈ (⟨key, synthetic⟩ : Held).presses) :
    p ∈ (⟨key, synthetic || added⟩ : Held).presses := by
  cases synthetic with
  | true => exact h
  | false =>
    cases key with
    | scancode code needs =>
      cases List.mem_singleton.mp h
      exact List.mem_cons_self
    | unicode ch => exact h
    | pause => exact h

/-- What is pressed after operations was pressed by one, or was before and released by none. -/
theorem pressedAfter_cases {p : Press} {ops : List Operation} :
    ∀ {was : Bool}, pressedAfter p was ops = true →
      (∃ op ∈ ops, op.stroke = .press p) ∨ (was = true ∧ ∀ op ∈ ops, op.stroke ≠ .release p) := by
  induction ops with
  | nil => exact fun h => Or.inr ⟨h, nofun⟩
  | cons op ops ih =>
    intro was h
    rcases ih h with ⟨op', hmem, hop⟩ | ⟨hwas, hno⟩
    · exact Or.inl ⟨op', List.mem_cons_of_mem op hmem, hop⟩
    · dsimp only at hwas
      split at hwas
      · rename_i hpress
        exact Or.inl ⟨op, List.mem_cons_self, hpress⟩
      · split at hwas
        · cases hwas
        · rename_i hrel
          exact Or.inr ⟨hwas, List.forall_mem_cons.mpr ⟨hrel, hno⟩⟩

/-- Operations that only release leave what was pressed and is none of theirs. -/
theorem pressedAfter_releases {p : Press} {was : Bool} {ops : List Operation} {released : List Press}
    (hops : ops.map Operation.stroke = released.map .release) (h : pressedAfter p was ops = true) :
    was = true ∧ p ∉ released := by
  have htold : ∀ e, (∃ op ∈ ops, op.stroke = e) ↔ ∃ q ∈ released, .release q = e := by
    intro e
    rw [← List.mem_map, hops, List.mem_map]
  rcases pressedAfter_cases h with hpress | ⟨hwas, hno⟩
  · obtain ⟨q, -, hq⟩ := (htold _).mp hpress
    cases hq
  · refine ⟨hwas, ?_⟩
    intro hp
    obtain ⟨op, hmem, hop⟩ := (htold (.release p)).mpr ⟨p, hp, rfl⟩
    exact hno op hmem hop

theorem flatMap_release_strokes (order : List Held) :
    (order.flatMap release).map Operation.stroke = (order.flatMap Held.presses).map .release := by
  rw [List.map_flatMap, List.map_flatMap]
  congr 1
  funext held
  exact release_strokes held

/-- The four events of Pause leave nothing down. -/
theorem down_pause {sent : List (Stroke Press)} {p : Press} (h : Down (sent ++ pauseEvents) p) : Down sent p :=
  down_of_strokes [.e1 0x1d, .key (plain 0x45)] h

namespace Client

variable {db : Database} {s s' : Client db} {c : Call (UInt16 × UInt16) (List Held)} {p : Press}

/-- The client will release it: a held key's release does, or its button is in the mask. -/
def Owns (s : Client db) (p : Press) : Prop :=
  (∃ held ∈ values s.held, p ∈ held.presses) ∨ ∃ b ∈ buttonBits, p = .button b.2 ∧ s.buttons &&& b.1 ≠ 0

/-- What is down at the far end the database knows, and what it knows the client owns. -/
structure Kept (s : Client db) : Prop where
  down : ∀ p, Down s.sent p → db.pressed s.input p = true
  owned : ∀ p, db.pressed s.input p = true → s.Owns p

theorem kept_start (hdb : Documented db) : (start db).Kept where
  down p h := absurd h (not_down_nil p)
  owned p h := by
    rw [start, hdb.new_pressed p] at h
    cases h

@[simp] theorem apply_held (s : Client db) (ops : List Operation) : (s.apply ops).held = s.held := by
  unfold apply
  split <;> rfl

@[simp] theorem apply_buttons (s : Client db) (ops : List Operation) : (s.apply ops).buttons = s.buttons := by
  unfold apply
  split <;> rfl

/-- Operations keep it if the client owns all that is pressed after them. -/
theorem apply_kept (hdb : Documented db) {ops : List Operation} (hdown : ∀ p, Down s.sent p → db.pressed s.input p = true)
    (hown : ∀ p, pressedAfter p (db.pressed s.input p) ops = true → s.Owns p) : (s.apply ops).Kept := by
  by_cases hops : ops = []
  · subst hops
    exact ⟨hdown, hown⟩
  · simp only [apply, hops, if_false]
    refine ⟨hdb.apply_down s.input ops s.sent hdown, ?_⟩
    intro p hp
    rw [hdb.apply_pressed] at hp
    exact hown p hp

/-- A held id is pressed again only as what its release releases, or another's does; it comes up, and the last
button does, while view-only is off. -/
def Calm (s : Client db) : Call (UInt16 × UInt16) (List Held) → Prop
  | .keyDown keysym id => s.viewOnly = false → ∀ old ∈ s.held.lookup id, ∀ key ∈ scancode keysym, ∀ p ∈ old.presses,
      p ∈ (⟨key, old.syntheticShift⟩ : Held).presses ∨ ∃ e ∈ s.held.entries, e.1 ≠ id ∧ p ∈ e.2.presses
  | .keyUp id => s.viewOnly = true → s.held.lookup id = none
  | .pointer _ mask => s.viewOnly = true → mask = 0 → ∀ b ∈ buttonBits, s.buttons &&& b.1 = 0
  | _ => True

instance (s : Client db) : DecidablePred s.Calm
  | .keyDown _ _ => inferInstanceAs (Decidable (_ → _))
  | .keyUp _ => inferInstanceAs (Decidable (_ → _))
  | .pointer _ _ => inferInstanceAs (Decidable (_ → _ → _))
  | .releaseAllKeys _ | .setViewOnly _ => isTrue trivial

/-- What a held key's release releases one still does once an id holds something else, if that or another id
takes over. -/
theorem presses_insert {id : Int64} {held : Held}
    (hold : ∀ old ∈ s.held.lookup id, ∀ p ∈ old.presses,
      p ∈ held.presses ∨ ∃ e ∈ s.held.entries, e.1 ≠ id ∧ p ∈ e.2.presses)
    (h : ∃ h ∈ values s.held, p ∈ h.presses) : ∃ h ∈ values (s.held.insert id held), p ∈ h.presses := by
  obtain ⟨h', hmem, hp⟩ := h
  have hother : (∃ i h'', i ≠ id ∧ s.held.lookup i = some h'' ∧ p ∈ h''.presses) →
      ∃ h'' ∈ values (s.held.insert id held), p ∈ h''.presses := by
    rintro ⟨i, h'', hi, hl, hp⟩
    exact ⟨h'', mem_values_insert.mpr (Or.inr ⟨i, hi, hl⟩), hp⟩
  obtain ⟨i, hi⟩ := mem_values.mp hmem
  by_cases heq : i = id
  · subst heq
    rcases hold h' hi p hp with hnew | ⟨⟨j, h''⟩, hent, hj, hp'⟩
    · exact ⟨held, mem_values_insert.mpr (Or.inl rfl), hnew⟩
    · exact hother ⟨j, h'', hj, AList.mem_lookup_iff.mpr hent, hp'⟩
  · exact hother ⟨i, h', heq, hi, hp⟩

theorem owns_insert {id : Int64} {held : Held}
    (hold : ∀ old ∈ s.held.lookup id, ∀ p ∈ old.presses,
      p ∈ held.presses ∨ ∃ e ∈ s.held.entries, e.1 ≠ id ∧ p ∈ e.2.presses)
    (h : s.Owns p) : ({ s with held := s.held.insert id held } : Client db).Owns p := by
  rcases h with hheld | hb
  · exact Or.inl (presses_insert hold hheld)
  · exact Or.inr hb

/-- A calm press takes over what its id held, whether or not Shift is added to it. -/
theorem Calm.takes_over {keysym : UInt32} {id : Int64} {key : Key} (hc : s.Calm (.keyDown keysym id))
    (hv : s.viewOnly = false) (hkey : scancode keysym = some key) (added : Bool) :
    ∀ old ∈ s.held.lookup id, ∀ p ∈ old.presses,
      p ∈ (⟨key, (s.held.lookup id).any Held.syntheticShift || added⟩ : Held).presses ∨
        ∃ e ∈ s.held.entries, e.1 ≠ id ∧ p ∈ e.2.presses := by
  intro old hl p hp
  rcases hc hv old hl key hkey p hp with hnew | hother
  · rw [Option.mem_def.mp hl]
    exact Or.inl (presses_mono hnew)
  · exact Or.inr hother

theorem kept_insert (hdb : Documented db) (h : s.Kept) {id : Int64} {held : Held} {ops : List Operation}
    (hold : ∀ old ∈ s.held.lookup id, ∀ p ∈ old.presses,
      p ∈ held.presses ∨ ∃ e ∈ s.held.entries, e.1 ≠ id ∧ p ∈ e.2.presses)
    (hops : ∀ op ∈ ops, ∀ p, op.stroke = .press p → p ∈ held.presses) :
    (({ s with held := s.held.insert id held } : Client db).apply ops).Kept := by
  refine apply_kept hdb h.down ?_
  intro p hp
  rcases pressedAfter_cases hp with ⟨op, hmem, hop⟩ | ⟨hwas, -⟩
  · exact Or.inl ⟨held, mem_values_insert.mpr (Or.inl rfl), hops op hmem p hop⟩
  · exact owns_insert hold (h.owned p hwas)

theorem kept_keyDown (hdb : Documented db) (h : s.Kept) {keysym : UInt32} {id : Int64}
    (hc : s.Calm (.keyDown keysym id)) : (s.keyDown keysym id).Kept := by
  unfold keyDown
  split
  · exact h
  · rename_i hview
    cases hkey : scancode keysym with
    | none => exact h
    | some key =>
      have hold := hc.takes_over (Bool.eq_false_iff.mpr hview) hkey
      cases key with
      | scancode code needs =>
        refine kept_insert hdb h (hold _) ?_
        intro op hop p hp
        rcases List.mem_append.mp hop with hshift | hcode
        · split at hshift
          · rename_i hadded
            cases List.mem_singleton.mp hshift
            cases hp
            simp [Held.presses, hadded]
          · cases hshift
        · cases List.mem_singleton.mp hcode
          cases hp
          exact List.mem_cons_self
      | unicode ch =>
        have hold' := hold false
        rw [Bool.or_false] at hold'
        refine kept_insert hdb h hold' ?_
        intro op hop p hp
        cases List.mem_singleton.mp hop
        cases hp
        exact List.mem_cons_self
      | pause =>
        have hold' := hold false
        rw [Bool.or_false] at hold'
        exact ⟨fun p hp => h.down p (down_pause hp), fun p hp => owns_insert hold' (h.owned p hp)⟩

theorem kept_keyUp (hdb : Documented db) (h : s.Kept) (id : Int64) : (s.keyUp id).Kept := by
  unfold keyUp
  split
  · exact h
  · cases hl : s.held.lookup id with
    | none => exact h
    | some held =>
      refine apply_kept hdb h.down ?_
      intro p hp
      obtain ⟨hwas, hno⟩ := pressedAfter_releases (release_strokes held) hp
      rcases h.owned p hwas with ⟨h', hmem, hp'⟩ | hb
      · refine Or.inl ⟨h', mem_values_erase_of_ne hl hmem ?_, hp'⟩
        rintro rfl
        exact hno hp'
      · exact Or.inr hb

theorem kept_releaseAllKeys (hdb : Documented db) (h : s.Kept) {order : List Held} (ho : order.Perm (values s.held)) :
    (s.releaseAllKeys order).Kept := by
  refine apply_kept hdb h.down ?_
  intro p hp
  obtain ⟨hwas, hno⟩ := pressedAfter_releases (flatMap_release_strokes order) hp
  rcases h.owned p hwas with ⟨held, hmem, hp'⟩ | hb
  · exact absurd (List.mem_flatMap.mpr ⟨held, ho.mem_iff.mpr hmem, hp'⟩) hno
  · exact Or.inr hb

/-- A button's edge presses it only if the mask has it, and leaves it unreleased only so. -/
theorem edge_press {mask previous : UInt16} {b : UInt16 × MouseButton} {op : Operation}
    (h : edge mask previous b = some op) (hp : op.stroke = .press p) : p = .button b.2 ∧ mask &&& b.1 ≠ 0 := by
  unfold edge at h
  dsimp only at h
  split at h
  · rename_i hnow
    cases h
    cases hp
    exact ⟨rfl, hnow.1⟩
  · split at h
    · cases h
      cases hp
    · cases h

theorem edge_release {mask previous : UInt16} {b : UInt16 × MouseButton} (hwas : previous &&& b.1 ≠ 0)
    (hnow : mask &&& b.1 = 0) : edge mask previous b = some (.mouseButtonReleased b.2) := by
  simp [edge, hwas, hnow]

theorem kept_pointer (hdb : Documented db) (h : s.Kept) (x y mask : UInt16) : (s.pointer x y mask).Kept := by
  unfold pointer
  split
  · exact h
  · refine apply_kept hdb h.down ?_
    intro p hp
    rcases pressedAfter_cases hp with ⟨op, hmem, hop⟩ | ⟨hwas, hno⟩
    · rw [List.mem_append, List.mem_cons, List.mem_filterMap, List.mem_filterMap] at hmem
      rcases hmem with (rfl | ⟨b, hb, hedge⟩) | ⟨b, -, hnotch⟩
      · cases hop
      · obtain ⟨hpb, hbit⟩ := edge_press hedge hop
        exact Or.inr ⟨b, hb, hpb, hbit⟩
      · unfold notch at hnotch
        split at hnotch
        · cases hnotch
          cases hop
        · cases hnotch
    · rcases h.owned p hwas with hheld | ⟨b, hb, rfl, hbit⟩
      · exact Or.inl hheld
      · refine Or.inr ⟨b, hb, rfl, ?_⟩
        -- else the edge is a release
        intro hnow
        refine hno (.mouseButtonReleased b.2) ?_ rfl
        exact List.mem_append_left _ (List.mem_cons_of_mem _ (List.mem_filterMap.mpr ⟨b, hb, edge_release hbit hnow⟩))

theorem releaseAllKeys_some {order : List Held} (hs : s.step (.releaseAllKeys order) = some s') :
    order.Perm (values s.held) ∧ s' = s.releaseAllKeys order := by
  unfold step at hs
  dsimp only at hs
  split at hs
  · rename_i ho
    cases hs
    exact ⟨ho, rfl⟩
  · cases hs

theorem kept_step (hdb : Documented db) (h : s.Kept) (hc : s.Calm c) (hs : s.step c = some s') : s'.Kept := by
  cases c with
  | keyDown keysym id =>
    cases hs
    exact kept_keyDown hdb h hc
  | keyUp id =>
    cases hs
    exact kept_keyUp hdb h id
  | releaseAllKeys order =>
    obtain ⟨ho, rfl⟩ := releaseAllKeys_some hs
    exact kept_releaseAllKeys hdb h ho
  | pointer at_ mask =>
    cases hs
    exact kept_pointer hdb h at_.1 at_.2 mask
  | setViewOnly viewOnly =>
    cases hs
    exact ⟨h.down, h.owned⟩

theorem keyDown_lookup_ne {keysym : UInt32} {id id' : Int64} (hne : id ≠ id') :
    (s.keyDown keysym id').held.lookup id = s.held.lookup id := by
  unfold keyDown
  split
  · rfl
  · cases scancode keysym with
    | none => rfl
    | some key => cases key <;> simp [sendPause, AList.lookup_insert_ne hne]

theorem keyUp_lookup {id id' : Int64} (h : (s.keyUp id').held.lookup id ≠ none) :
    s.held.lookup id ≠ none ∧ (id' = id → s.viewOnly = true) := by
  unfold keyUp at h
  split at h
  · rename_i hview
    exact ⟨h, fun _ => hview⟩
  · cases hl : s.held.lookup id' with
    | none =>
      simp only [hl] at h
      refine ⟨h, ?_⟩
      rintro rfl
      exact absurd hl h
    | some held =>
      simp only [hl, apply_held] at h
      by_cases heq : id' = id
      · subst heq
        exact absurd (AList.lookup_erase _ _) h
      · rw [AList.lookup_erase_ne (Ne.symm heq)] at h
        exact ⟨h, fun heq' => absurd heq' heq⟩

/-- An id is in the map since it went down, and not past its release. -/
theorem held_step (hc : s.Calm c) (hs : s.step c = some s') (id : Int64) (hid : s'.held.lookup id ≠ none) :
    (∃ keysym, c = .keyDown keysym id) ∨ (s.held.lookup id ≠ none ∧ c.letsGo id = false) := by
  cases c with
  | keyDown keysym id' =>
    cases hs
    by_cases heq : id' = id
    · subst heq
      exact Or.inl ⟨keysym, rfl⟩
    · rw [keyDown_lookup_ne (Ne.symm heq)] at hid
      exact Or.inr ⟨hid, rfl⟩
  | keyUp id' =>
    cases hs
    obtain ⟨hold, hview⟩ := keyUp_lookup hid
    refine Or.inr ⟨hold, ?_⟩
    show decide (id' = id) = false
    rw [decide_eq_false_iff_not]
    rintro rfl
    exact hold (hc (hview rfl))
  | releaseAllKeys order =>
    obtain ⟨-, rfl⟩ := releaseAllKeys_some hs
    rw [releaseAllKeys, apply_held] at hid
    exact absurd rfl hid
  | pointer at_ mask =>
    cases hs
    refine Or.inr ⟨?_, rfl⟩
    unfold pointer at hid
    split at hid
    · exact hid
    · rwa [apply_held] at hid
  | setViewOnly viewOnly =>
    cases hs
    exact Or.inr ⟨hid, rfl⟩

theorem buttons_step (hs : s.step c = some s') (hn : c.mask? = none) : s'.buttons = s.buttons := by
  cases c with
  | keyDown keysym id =>
    cases hs
    unfold keyDown
    split
    · rfl
    · cases scancode keysym with
      | none => rfl
      | some key => cases key <;> simp [sendPause]
  | keyUp id =>
    cases hs
    unfold keyUp
    split
    · rfl
    · cases s.held.lookup id with
      | none => rfl
      | some held => exact apply_buttons _ _
  | releaseAllKeys order =>
    obtain ⟨-, rfl⟩ := releaseAllKeys_some hs
    exact apply_buttons _ _
  | pointer at_ mask => cases hn
  | setViewOnly viewOnly =>
    cases hs
    rfl

/-- Once all is let go of, nothing is down at the far end. -/
theorem unstranded (hdb : Documented db) {calls : List (Call (UInt16 × UInt16) (List Held))}
    (hm : Meets step Calm (start db) calls) (hr : run step (start db) calls = some s) (hgo : LetGo calls)
    (hlast : ∀ m ∈ lastMask calls, m = 0) (p : Press) : ¬Down s.sent p := by
  intro hp
  have hkept : s.Kept :=
    trace_inv (fun _ s => s.Kept) (kept_start hdb) (fun _ _ _ _ hi hc hs => kept_step hdb hi hc hs) hm hr
  have hbuttons : ∀ b ∈ buttonBits, s.buttons &&& b.1 = 0 := by
    refine quiet (fun s : Client db => ∀ b ∈ buttonBits, s.buttons &&& b.1 = 0) (fun b _ => UInt16.zero_and)
      ?_ ?_ hm hr hlast
    · intro s at_ s' hc hs
      cases hs
      unfold pointer
      split
      · rename_i hview
        exact hc hview rfl
      · intro b _
        rw [apply_buttons]
        exact UInt16.zero_and
    · intro s c s' _ hn hs hq
      rwa [buttons_step hs hn]
  rcases hkept.owned p (hkept.down p hp) with ⟨held, hmem, -⟩ | ⟨b, hb, -, hbit⟩
  · obtain ⟨id, hid⟩ := mem_values.mp hmem
    refine not_holds (fun (s : Client db) id => s.held.lookup id ≠ none) (fun _ h => h rfl)
      (fun s c s' hc hs id => held_step hc hs id) hm hr hgo id ?_
    rw [hid]
    nofun
  · exact hbit (hbuttons b hb)

/-- While view-only is on, what is sent is releases. -/
theorem viewOnly_releases (hdb : Documented db) (hv : s.viewOnly = true) (hs : s.step c = some s') :
    ∃ out, s'.sent = s.sent ++ out ∧ ∀ e ∈ out, ∃ p, e = .release p := by
  have hnone : s'.sent = s.sent → ∃ out, s'.sent = s.sent ++ out ∧ ∀ e ∈ out, ∃ p, e = .release p :=
    fun h => ⟨[], by simp [h], nofun⟩
  cases c with
  | keyDown keysym id =>
    cases hs
    exact hnone (by simp [keyDown, hv])
  | keyUp id =>
    cases hs
    exact hnone (by simp [keyUp, hv])
  | releaseAllKeys order =>
    obtain ⟨-, rfl⟩ := releaseAllKeys_some hs
    unfold releaseAllKeys apply
    split
    · exact ⟨[], by simp, nofun⟩
    · refine ⟨_, rfl, ?_⟩
      intro e he
      rcases hdb.apply_told _ _ e he with hrel | hop
      · exact hrel
      · rw [← List.mem_map, flatMap_release_strokes, List.mem_map] at hop
        obtain ⟨p, -, rfl⟩ := hop
        exact ⟨p, rfl⟩
  | pointer at_ mask =>
    cases hs
    exact hnone (by simp [pointer, hv])
  | setViewOnly viewOnly =>
    cases hs
    exact hnone rfl

end Client

end Vento.Ironrdp
