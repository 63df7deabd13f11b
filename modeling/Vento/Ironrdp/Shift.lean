import Vento.Ironrdp.Input
/-!
# Shift at the far end of an RDP client

The keys of `Input` over a database that is a set of what is pressed and makes no event of what changes
nothing. A character that needs Shift is sent under one that is down already or under one that this client
presses and remembers for that id alone, and each scancode is pressed once, however many ids map to it. So a
release can take from the far end what another id still needs: `Spared` is when it does not.
-/

namespace Vento.Ironrdp

open Vento.Lib Vento.Input

/-- The events of operations on what is pressed; one that changes nothing makes none. -/
def changes : (Press → Bool) → List Operation → List (Stroke Press)
  | _, [] => []
  | f, op :: ops =>
    match op.stroke with
    | .press p => (if f p then [] else [.press p]) ++ changes (Function.update f p true) ops
    | .release p => (if f p then [.release p] else []) ++ changes (Function.update f p false) ops
    | .other => changes f ops

/-- The database is a set of what is pressed, as far as keys go. -/
structure PressedSet (db : Database) : Prop where
  new_pressed : ∀ p, db.pressed db.new p = false
  apply_pressed : ∀ st ops p, db.pressed (db.apply st ops).1 p = pressedAfter p (db.pressed st p) ops
  apply_events : ∀ st ops, (∀ op ∈ ops, op.stroke ≠ .other) → (db.apply st ops).2 = changes (db.pressed st) ops

theorem changes_told {e : Stroke Press} {ops : List Operation} :
    ∀ {f : Press → Bool}, e ∈ changes f ops → ∃ op ∈ ops, op.stroke = e := by
  induction ops with
  | nil => exact nofun
  | cons op ops ih =>
    intro f he
    have hrest : ∀ {f}, e ∈ changes f ops → ∃ op' ∈ op :: ops, op'.stroke = e := by
      intro f h
      obtain ⟨op', hmem, hop⟩ := ih h
      exact ⟨op', List.mem_cons_of_mem op hmem, hop⟩
    unfold changes at he
    split at he
    · rename_i p hop
      rcases List.mem_append.mp he with hone | hmore
      · split at hone
        · cases hone
        · exact ⟨op, List.mem_cons_self, hop.trans (List.mem_singleton.mp hone).symm⟩
      · exact hrest hmore
    · rename_i p hop
      rcases List.mem_append.mp he with hone | hmore
      · split at hone
        · exact ⟨op, List.mem_cons_self, hop.trans (List.mem_singleton.mp hone).symm⟩
        · cases hone
      · exact hrest hmore
    · exact hrest he

theorem pressedAfter_cons (p : Press) (was : Bool) (op : Operation) (ops : List Operation) :
    pressedAfter p was (op :: ops) =
      pressedAfter p (if op.stroke = .press p then true else if op.stroke = .release p then false else was) ops := rfl

/-- A far end that has down what is pressed has it after the events too. -/
theorem down_changes {p : Press} {ops : List Operation} :
    ∀ {f : Press → Bool} {sent : List (Stroke Press)}, (∀ q, Down sent q ↔ f q = true) →
      (Down (sent ++ changes f ops) p ↔ pressedAfter p (f p) ops = true) := by
  induction ops with
  | nil =>
    intro f sent h
    rw [changes, List.append_nil]
    exact h p
  | cons op ops ih =>
    intro f sent h
    rw [pressedAfter_cons]
    unfold changes
    split
    · rename_i q hop
      rw [← List.append_assoc, ih]
      · by_cases hp : p = q
        · simp [hop, hp]
        · simp [hop, hp, Ne.symm hp]
      · intro r
        by_cases hr : r = q
        · subst hr
          by_cases hf : f r = true
          · simp [hf, h]
          · simp [hf, down_snoc]
        · by_cases hf : f q = true
          · simp [hf, h, hr]
          · simp [hf, down_snoc, h, hr, Ne.symm hr]
    · rename_i q hop
      rw [← List.append_assoc, ih]
      · by_cases hp : p = q
        · simp [hop, hp]
        · simp [hop, hp, Ne.symm hp]
      · intro r
        by_cases hr : r = q
        · subst hr
          by_cases hf : f r = true
          · simp [hf, down_snoc]
          · simp [hf, h]
        · by_cases hf : f q = true
          · simp [hf, down_snoc, h, hr, Ne.symm hr]
          · simp [hf, h, hr]
    · rename_i hop
      rw [ih h]
      simp [hop]

/-! ## The keys -/

namespace Key

def code? : Key → Option Scancode
  | .scancode code _ => some code
  | _ => none

/-- A character that the layout has under Shift. -/
def shifted : Key → Bool
  | .scancode _ needs => needs
  | _ => false

/-- One of the two Shifts. -/
def isShift (k : Key) : Prop := k.code? = some shift ∨ k.code? = some rightShift

end Key

theorem usLayout_codes : (usLayout.all fun row => plain row.1 != shift && plain row.1 != rightShift) = true := by
  decide +kernel

/-- Neither Shift is a shifted character. -/
theorem shifted_code {keysym : UInt32} {code : Scancode} (h : scancode keysym = some (.scancode code true)) :
    code ≠ shift ∧ code ≠ rightShift := by
  unfold scancode at h
  split at h
  · cases h
  · split at h
    · cases h
    · split at h
      · cases h
      · obtain ⟨ch, -, hch⟩ := Option.map_eq_some_iff.mp h
        cases hf : usLayout.findSome? (placed ch) with
        | none =>
          rw [hf] at hch
          cases hch
        | some key =>
          rw [hf, Option.getD_some] at hch
          subst hch
          obtain ⟨row, hrow, hp⟩ := List.exists_of_findSome?_eq_some hf
          have hcodes := List.all_eq_true.mp usLayout_codes row hrow
          rw [Bool.and_eq_true, bne_iff_ne, bne_iff_ne] at hcodes
          unfold placed at hp
          split at hp
          · cases hp
          · split at hp
            · cases hp
              exact hcodes
            · cases hp

/-- A call that is about keys. -/
inductive KeyCall where
  | keyDown (keysym : UInt32) (id : Int64)
  | keyUp (id : Int64)
  | releaseAllKeys (order : List Held)
deriving DecidableEq, Repr

def KeyCall.call : KeyCall → Call (UInt16 × UInt16) (List Held)
  | .keyDown keysym id => .keyDown keysym id
  | .keyUp id => .keyUp id
  | .releaseAllKeys order => .releaseAllKeys order

namespace Client

variable {db : Database} {s s' : Client db} {c : KeyCall} {p : Press}

def keyStep (s : Client db) (c : KeyCall) : Option (Client db) := s.step c.call

/-- Either Shift is down at the far end. -/
def Shifts (sent : List (Stroke Press)) : Prop := Down sent (.key shift) ∨ Down sent (.key rightShift)

/-- What a call sends: a shifted character under a Shift; the last Shift up when no held key is one or needs
one; a scancode up when no held id maps to it; and none left down when no id is held. -/
structure Proper (s : Client db) (c : KeyCall) (s' : Client db) (out : List (Stroke Press)) : Prop where
  sent : s'.sent = s.sent ++ out
  shifted : ∀ keysym id code, c = .keyDown keysym id → scancode keysym = some (.scancode code true) →
    Shifts s'.sent ∧ Down s'.sent (.key code) ∧
      ∀ pre post, out = pre ++ .press (.key code) :: post → Shifts (s.sent ++ pre)
  lastShift : ∀ pre e post, out = pre ++ e :: post → (e = .release (.key shift) ∨ e = .release (.key rightShift)) →
    ¬Shifts (s.sent ++ pre ++ [e]) → ∀ h ∈ values s'.held, ¬h.key.isShift ∧ h.key.shifted = false
  released : ∀ code, .release (.key code) ∈ out → ∀ h ∈ values s'.held, h.key.code? ≠ some code
  none_held : values s'.held = [] → ∀ code, ¬Down s'.sent (.key code)

/-- A release spares what the other held keys need: no scancode that one maps to is released, nor the last
Shift under a shifted character. A press spares what its id held (`Calm`), and a shifted character that repeats
finds a Shift down. Pause, which presses and releases Num Lock, is not pressed while that is held. -/
def Spared (s : Client db) : KeyCall → Prop
  | .keyDown keysym id => s.Calm (.keyDown keysym id) ∧ ∀ key ∈ scancode keysym,
      (key.shifted = true → (s.held.lookup id).any Held.syntheticShift = true → s.shiftIsDown = true) ∧
      (key = .pause → ∀ h ∈ values s.held, h.key.code? ≠ some (plain 0x45))
  | .keyUp id => ∀ held ∈ s.held.lookup id, ∀ e ∈ s.held.entries, e.1 ≠ id →
      (∀ code ∈ e.2.key.code?, .key code ∉ held.presses) ∧
      (e.2.key.shifted = true → ∃ sh ∈ [shift, rightShift], db.pressed s.input (.key sh) = true ∧ .key sh ∉ held.presses)
  | .releaseAllKeys _ => True

instance (s : Client db) : DecidablePred s.Spared
  | .keyDown _ _ => inferInstanceAs (Decidable (_ ∧ _))
  | .keyUp _ => inferInstanceAs (Decidable (∀ held ∈ s.held.lookup _, _))
  | .releaseAllKeys _ => isTrue trivial

/-- The far end has down what is pressed; that is the code of every held key, a Shift under a shifted one, and
nothing that no held key will release. -/
structure Good (s : Client db) : Prop where
  on : s.viewOnly = false
  far : ∀ p, Down s.sent p ↔ db.pressed s.input p = true
  codes : ∀ h ∈ values s.held, ∀ code ∈ h.key.code?, db.pressed s.input (.key code) = true
  shifted : ∀ h ∈ values s.held, h.key.shifted = true → s.shiftIsDown = true
  owned : ∀ p, db.pressed s.input p = true → ∃ h ∈ values s.held, p ∈ h.presses

theorem good_start (hdb : PressedSet db) : (start db).Good where
  on := rfl
  far p := iff_of_false (not_down_nil p) (by simp [start, hdb.new_pressed])
  codes := nofun
  shifted := nofun
  owned p h := by
    rw [start, hdb.new_pressed p] at h
    cases h

/-! ## What a step leaves -/

theorem apply_pressed (hdb : PressedSet db) (s : Client db) (ops : List Operation) (p : Press) :
    db.pressed (s.apply ops).input p = pressedAfter p (db.pressed s.input p) ops := by
  unfold apply
  split
  · rename_i hops
    rw [hops]
    rfl
  · exact hdb.apply_pressed s.input ops p

theorem apply_sent (hdb : PressedSet db) (s : Client db) {ops : List Operation} (hops : ∀ op ∈ ops, op.stroke ≠ .other) :
    (s.apply ops).sent = s.sent ++ changes (db.pressed s.input) ops := by
  unfold apply
  split
  · rename_i hnil
    rw [hnil, changes, List.append_nil]
  · rw [hdb.apply_events s.input ops hops]

theorem apply_far (hdb : PressedSet db) {ops : List Operation} (hops : ∀ op ∈ ops, op.stroke ≠ .other)
    (h : ∀ p, Down s.sent p ↔ db.pressed s.input p = true) (p : Press) :
    Down (s.apply ops).sent p ↔ db.pressed (s.apply ops).input p = true := by
  rw [apply_sent hdb s hops, apply_pressed hdb s ops p]
  exact down_changes h

@[simp] theorem apply_viewOnly (s : Client db) (ops : List Operation) : (s.apply ops).viewOnly = s.viewOnly := by
  unfold apply
  split <;> rfl

theorem shifts_iff (h : s.Good) : Shifts s.sent ↔ s.shiftIsDown = true := by
  rw [Shifts, h.far, h.far, shiftIsDown, Bool.or_eq_true]

theorem Good.none_held (h : s.Good) (hnil : values s.held = []) (code : Scancode) : ¬Down s.sent (.key code) := by
  intro hd
  obtain ⟨held, hmem, -⟩ := h.owned (.key code) ((h.far (.key code)).mp hd)
  rw [hnil] at hmem
  cases hmem

/-- Releases are proper if what is held after them is still there: it is what they may not take. -/
theorem Good.proper_of_releases (h : s'.Good) {out : List (Stroke Press)} (hsent : s'.sent = s.sent ++ out)
    (hout : ∀ e ∈ out, ∃ p, e = .release p)
    (hc : ∀ keysym id code, c = .keyDown keysym id → scancode keysym ≠ some (.scancode code true)) :
    Proper s c s' out where
  sent := hsent
  shifted keysym id code heq hkey := absurd hkey (hc keysym id code heq)
  none_held := h.none_held
  lastShift := by
    intro pre e post heq _ hno held hmem
    have hdown : ∀ sh, Down s'.sent (.key sh) → Down (s.sent ++ pre ++ [e]) (.key sh) := by
      intro sh hd
      rw [hsent, heq, ← List.append_assoc, List.append_cons] at hd
      rcases down_append hd with hpost | ⟨hpre, -⟩
      · obtain ⟨p, hp⟩ := hout _ (by rw [heq]; exact List.mem_append_right _ (List.mem_cons_of_mem _ hpost.press_mem))
        cases hp
      · exact hpre
    have hshifts : ¬Shifts s'.sent := by
      rintro (hd | hd)
      · exact hno (Or.inl (hdown _ hd))
      · exact hno (Or.inr (hdown _ hd))
    refine ⟨?_, ?_⟩
    · rintro (hcode | hcode)
      · exact hshifts (Or.inl ((h.far _).mpr (h.codes held hmem _ hcode)))
      · exact hshifts (Or.inr ((h.far _).mpr (h.codes held hmem _ hcode)))
    · rw [← Bool.not_eq_true]
      intro hs
      exact hshifts ((shifts_iff h).mpr (h.shifted held hmem hs))
  released := by
    intro code hrel held hmem hcode
    have hd : Down s'.sent (.key code) := (h.far _).mpr (h.codes held hmem code hcode)
    rw [hsent] at hd
    rcases down_append hd with hnew | ⟨-, hno⟩
    · obtain ⟨p, hp⟩ := hout _ hnew.press_mem
      cases hp
    · exact hno hrel

/-- What no operation releases stays pressed or is pressed. -/
theorem pressedAfter_of_unreleased {ops : List Operation} :
    ∀ {was : Bool}, (∀ op ∈ ops, op.stroke ≠ .release p) → (was = true ∨ ∃ op ∈ ops, op.stroke = .press p) →
      pressedAfter p was ops = true := by
  induction ops with
  | nil =>
    rintro was - (hwas | ⟨op, hop, -⟩)
    · exact hwas
    · cases hop
  | cons op ops ih =>
    intro was hno h
    obtain ⟨hop, hno⟩ := List.forall_mem_cons.mp hno
    rw [pressedAfter_cons]
    refine ih hno ?_
    rw [if_neg hop]
    rcases h with hwas | ⟨op', hmem, hpress⟩
    · rw [hwas]
      exact Or.inl (by split <;> rfl)
    · rcases List.mem_cons.mp hmem with rfl | hmem
      · exact Or.inl (if_pos hpress)
      · exact Or.inr ⟨op', hmem, hpress⟩

theorem mem_release_iff {held : Held} {e : Stroke Press} :
    (∃ op ∈ release held, op.stroke = e) ↔ ∃ p ∈ held.presses, .release p = e := by
  rw [← List.mem_map, release_strokes, List.mem_map]

theorem good_keyUp (hdb : PressedSet db) (h : s.Good) {id : Int64} (hc : s.Spared (.keyUp id)) {held : Held}
    (hl : s.held.lookup id = some held) : (({ s with held := s.held.erase id } : Client db).apply (release held)).Good where
  on := by simpa using h.on
  far := by
    refine apply_far hdb ?_ h.far
    intro op hop he
    obtain ⟨p, -, hp⟩ := mem_release_iff.mp ⟨op, hop, he⟩
    cases hp
  codes := by
    rw [apply_held]
    intro held' hmem code hcode
    rw [apply_pressed hdb]
    obtain ⟨i, hi, hl'⟩ := mem_values_erase.mp hmem
    have hspared := (hc held hl ⟨i, held'⟩ (AList.mem_lookup_iff.mp hl') hi).1 code hcode
    refine pressedAfter_of_unreleased ?_ (Or.inl (h.codes held' (mem_values_of_erase hmem) code hcode))
    intro op hop he
    obtain ⟨q, hq, heq⟩ := mem_release_iff.mp ⟨op, hop, he⟩
    cases heq
    exact hspared hq
  shifted := by
    rw [apply_held]
    intro held' hmem hs
    obtain ⟨i, hi, hl'⟩ := mem_values_erase.mp hmem
    obtain ⟨sh, hsh, hpressed, hno⟩ := (hc held hl ⟨i, held'⟩ (AList.mem_lookup_iff.mp hl') hi).2 hs
    have hdown : db.pressed (({ s with held := s.held.erase id } : Client db).apply (release held)).input (.key sh) = true := by
      rw [apply_pressed hdb]
      refine pressedAfter_of_unreleased ?_ (Or.inl hpressed)
      intro op hop he
      obtain ⟨q, hq, heq⟩ := mem_release_iff.mp ⟨op, hop, he⟩
      cases heq
      exact hno hq
    rw [shiftIsDown, Bool.or_eq_true]
    rw [List.mem_cons, List.mem_singleton] at hsh
    rcases hsh with rfl | rfl
    · exact Or.inl hdown
    · exact Or.inr hdown
  owned := by
    rw [apply_held]
    intro p hp
    rw [apply_pressed hdb] at hp
    obtain ⟨hwas, hno⟩ := pressedAfter_releases (release_strokes held) hp
    obtain ⟨held', hmem, hp'⟩ := h.owned p hwas
    refine ⟨held', mem_values_erase_of_ne hl hmem ?_, hp'⟩
    rintro rfl
    exact hno hp'

theorem good_releaseAllKeys (hdb : PressedSet db) (h : s.Good) {order : List Held} (ho : order.Perm (values s.held)) :
    (s.releaseAllKeys order).Good := by
  have hheld : (s.releaseAllKeys order).held = ∅ := apply_held _ _
  have hnone : ∀ p, db.pressed (s.releaseAllKeys order).input p ≠ true := by
    intro p hp
    rw [releaseAllKeys, apply_pressed hdb] at hp
    obtain ⟨hwas, hno⟩ := pressedAfter_releases (flatMap_release_strokes order) hp
    obtain ⟨held, hmem, hp'⟩ := h.owned p hwas
    exact hno (List.mem_flatMap.mpr ⟨held, ho.mem_iff.mpr hmem, hp'⟩)
  refine ⟨?_, ?_, ?_, ?_, fun p hp => absurd hp (hnone p)⟩
  · rw [releaseAllKeys, apply_viewOnly]
    exact h.on
  · refine apply_far hdb ?_ h.far
    intro op hop he
    have hmem := List.mem_map_of_mem (f := Operation.stroke) hop
    rw [he, flatMap_release_strokes, List.mem_map] at hmem
    obtain ⟨p, -, hp⟩ := hmem
    cases hp
  · rw [hheld, values_empty]
    intro held hmem
    cases hmem
  · rw [hheld, values_empty]
    intro held hmem
    cases hmem

/-- A press that leaves its id's key pressed, a Shift under it if it needs one, and all that its id had pressed to
some held key. -/
theorem good_insert (hdb : PressedSet db) (h : s.Good) {id : Int64} {held : Held} {ops : List Operation}
    (hpress : ∀ op ∈ ops, ∃ p ∈ held.presses, op.stroke = .press p)
    (hcode : ∀ code ∈ held.key.code?, ∃ op ∈ ops, op.stroke = .press (.key code))
    (hshift : held.key.shifted = true → s.shiftIsDown = true ∨ ∃ op ∈ ops, op.stroke = .press (.key shift))
    (hold : ∀ old ∈ s.held.lookup id, ∀ p ∈ old.presses,
      p ∈ held.presses ∨ ∃ e ∈ s.held.entries, e.1 ≠ id ∧ p ∈ e.2.presses) :
    (({ s with held := s.held.insert id held } : Client db).apply ops).Good := by
  have hstays : ∀ p, db.pressed s.input p = true ∨ (∃ op ∈ ops, op.stroke = .press p) →
      db.pressed (({ s with held := s.held.insert id held } : Client db).apply ops).input p = true := by
    intro p hp
    rw [apply_pressed hdb]
    refine pressedAfter_of_unreleased ?_ hp
    intro op hop he
    obtain ⟨q, -, hq⟩ := hpress op hop
    cases he.symm.trans hq
  have hshifts : s.shiftIsDown = true →
      (({ s with held := s.held.insert id held } : Client db).apply ops).shiftIsDown = true := by
    unfold shiftIsDown
    rw [Bool.or_eq_true, Bool.or_eq_true]
    exact Or.imp (fun hp => hstays _ (Or.inl hp)) (fun hp => hstays _ (Or.inl hp))
  refine ⟨by simpa using h.on, ?_, ?_, ?_, ?_⟩
  · refine apply_far hdb ?_ h.far
    intro op hop he
    obtain ⟨q, -, hq⟩ := hpress op hop
    cases he.symm.trans hq
  · rw [apply_held]
    intro held' hmem code hcode'
    rcases mem_values_insert.mp hmem with rfl | ⟨i, -, hi⟩
    · exact hstays _ (Or.inr (hcode code hcode'))
    · exact hstays _ (Or.inl (h.codes held' (mem_values.mpr ⟨i, hi⟩) code hcode'))
  · rw [apply_held]
    intro held' hmem hs
    rcases mem_values_insert.mp hmem with rfl | ⟨i, -, hi⟩
    · rcases hshift hs with hdown | hadded
      · exact hshifts hdown
      · unfold shiftIsDown
        rw [Bool.or_eq_true]
        exact Or.inl (hstays _ (Or.inr hadded))
    · exact hshifts (h.shifted held' (mem_values.mpr ⟨i, hi⟩) hs)
  · rw [apply_held]
    intro p hp
    rw [apply_pressed hdb] at hp
    rcases pressedAfter_cases hp with ⟨op, hop, he⟩ | ⟨hwas, -⟩
    · obtain ⟨q, hq, hq'⟩ := hpress op hop
      cases he.symm.trans hq'
      exact ⟨held, mem_values_insert.mpr (Or.inl rfl), hq⟩
    · exact presses_insert hold (h.owned p hwas)

/-- What the Shift of a shifted character comes from: it is down, or added in front. -/
theorem shift_of_press {id : Int64} {needs : Bool} {added : Bool}
    (hadded : added = (needs && !(s.held.lookup id).any Held.syntheticShift && !s.shiftIsDown))
    (hc : needs = true → (s.held.lookup id).any Held.syntheticShift = true → s.shiftIsDown = true) (hneeds : needs = true) :
    s.shiftIsDown = true ∨ added = true := by
  cases hdown : s.shiftIsDown with
  | true => exact Or.inl rfl
  | false =>
    cases hsyn : (s.held.lookup id).any Held.syntheticShift with
    | true => exact absurd (hc hneeds hsyn) (by simp [hdown])
    | false => exact Or.inr (by simp [hadded, hneeds, hsyn, hdown])

theorem down_pause_iff {sent : List (Stroke Press)} (hnum : ¬Down sent (.key (plain 0x45))) (he1 : ¬Down sent (.e1 0x1d)) :
    Down (sent ++ pauseEvents) p ↔ Down sent p := by
  constructor
  · exact down_pause
  · intro h
    have hp : p ≠ .key (plain 0x45) ∧ p ≠ .e1 0x1d := ⟨fun he => hnum (he ▸ h), fun he => he1 (he ▸ h)⟩
    have hsplit : sent ++ pauseEvents = sent ++ [.press (.e1 0x1d)] ++ [.press (.key (plain 0x45))] ++
        [.release (.e1 0x1d)] ++ [.release (.key (plain 0x45))] := by simp [pauseEvents]
    rw [hsplit, down_snoc, down_snoc, down_snoc, down_snoc]
    simp [h, hp.1.symm, hp.2.symm]

theorem presses_ne (held : Held) : .e1 0x1d ∉ held.presses := by
  obtain ⟨key, synthetic⟩ := held
  cases key <;> cases synthetic <;> simp [Held.presses]

theorem presses_numLock {held : Held} (h : .key (plain 0x45) ∈ held.presses) : held.key.code? = some (plain 0x45) := by
  obtain ⟨key, synthetic⟩ := held
  have hne : plain 0x45 ≠ shift := by decide
  cases key with
  | scancode code needs =>
    cases synthetic with
    | true =>
      simp [Held.presses, hne] at h
      simp [Key.code?, h]
    | false =>
      simp [Held.presses] at h
      simp [Key.code?, h]
  | unicode ch => simp [Held.presses] at h
  | pause => simp [Held.presses] at h

/-- Presses are proper if a shifted character among them comes under a Shift. -/
theorem Good.proper_of_presses (h : s'.Good) {out : List (Stroke Press)} (hsent : s'.sent = s.sent ++ out)
    (hout : ∀ e ∈ out, ∃ p, e = .press p)
    (hc : ∀ keysym id code, c = .keyDown keysym id → scancode keysym = some (.scancode code true) →
      Shifts s'.sent ∧ Down s'.sent (.key code) ∧
        ∀ pre post, out = pre ++ .press (.key code) :: post → Shifts (s.sent ++ pre)) :
    Proper s c s' out where
  sent := hsent
  shifted := hc
  none_held := h.none_held
  lastShift := by
    intro pre e post heq he
    obtain ⟨p, hp⟩ := hout e (by simp [heq])
    rcases he with rfl | rfl <;> cases hp
  released := by
    intro code hrel
    obtain ⟨p, hp⟩ := hout _ hrel
    cases hp

/-- What presses a scancode, with Shift in front where it is added. -/
def underShift (added : Bool) (code : Scancode) : List Operation :=
  (if added then [.keyPressed shift] else []) ++ [.keyPressed code]

theorem mem_underShift {added : Bool} {code : Scancode} {op : Operation} :
    op ∈ underShift added code ↔ op = .keyPressed code ∨ (added = true ∧ op = .keyPressed shift) := by
  cases added
  · simp [underShift]
  · simp [underShift, or_comm]

/-- All that comes before the code is the Shift that is added. -/
theorem before_code {f : Press → Bool} {added : Bool} {code : Scancode} (hne : code ≠ shift)
    (hup : added = true → f (.key shift) = false) {pre post : List (Stroke Press)}
    (h : changes f (underShift added code) = pre ++ .press (.key code) :: post) :
    pre = if added then [.press (.key shift)] else [] := by
  cases added with
  | true =>
    have hout : changes f (underShift true code) =
        .press (.key shift) :: if f (.key code) then [] else [.press (.key code)] := by
      simp [underShift, changes, Operation.stroke, hup rfl, hne]
    rw [hout] at h
    cases pre with
    | nil =>
      rw [List.nil_append] at h
      cases (List.cons.inj h).1
      exact absurd rfl hne
    | cons e pre =>
      rw [List.cons_append] at h
      obtain ⟨rfl, h⟩ := List.cons.inj h
      cases pre with
      | nil => rfl
      | cons e pre => split at h <;> simp at h
  | false =>
    have hout : changes f (underShift false code) = if f (.key code) then [] else [.press (.key code)] := by
      simp [underShift, changes, Operation.stroke]
    rw [hout] at h
    cases pre with
    | nil => rfl
    | cons e pre => split at h <;> simp at h

theorem keyDown_scancode {keysym : UInt32} {id : Int64} {code : Scancode} {needs added : Bool} (hv : s.viewOnly = false)
    (hkey : scancode keysym = some (.scancode code needs))
    (hadded : added = (needs && !(s.held.lookup id).any Held.syntheticShift && !s.shiftIsDown)) :
    s.keyDown keysym id =
      ({ s with held := s.held.insert id ⟨.scancode code needs, (s.held.lookup id).any Held.syntheticShift || added⟩ } :
        Client db).apply (underShift added code) := by
  simp only [keyDown, hv, Bool.false_eq_true, if_false, hkey, hadded, underShift]

theorem good_scancode (hdb : PressedSet db) (h : s.Good) {keysym : UInt32} {id : Int64} {code : Scancode} {needs : Bool}
    (hkey : scancode keysym = some (.scancode code needs)) (hc : s.Spared (.keyDown keysym id)) :
    (s.keyDown keysym id).Good := by
  rw [keyDown_scancode h.on hkey rfl]
  refine good_insert hdb h ?_ ?_ ?_ (hc.1.takes_over h.on hkey _)
  · intro op hop
    rcases mem_underShift.mp hop with rfl | ⟨ha, rfl⟩
    · exact ⟨.key code, List.mem_cons_self, rfl⟩
    · exact ⟨.key shift, by simp only [Held.presses, ha, Bool.or_true, if_true]; simp, rfl⟩
  · intro code' hcode'
    cases hcode'
    exact ⟨.keyPressed code, mem_underShift.mpr (Or.inl rfl), rfl⟩
  · intro hneeds
    rcases shift_of_press rfl (hc.2 _ hkey).1 hneeds with hdown | hadded
    · exact Or.inl hdown
    · exact Or.inr ⟨.keyPressed shift, mem_underShift.mpr (Or.inr ⟨hadded, rfl⟩), rfl⟩

theorem proper_scancode (hdb : PressedSet db) (h : s.Good) {keysym : UInt32} {id : Int64} {code : Scancode} {needs : Bool}
    (hkey : scancode keysym = some (.scancode code needs)) (hc : s.Spared (.keyDown keysym id)) :
    ∃ out, Proper s (.keyDown keysym id) (s.keyDown keysym id) out := by
  have hgood := good_scancode hdb h hkey hc
  generalize hadded : (needs && !(s.held.lookup id).any Held.syntheticShift && !s.shiftIsDown) = added
  have hs' := keyDown_scancode h.on hkey hadded.symm
  refine ⟨changes (db.pressed s.input) (underShift added code), hgood.proper_of_presses ?_ ?_ ?_⟩
  · rw [hs']
    refine apply_sent hdb _ ?_
    intro op hop
    rcases mem_underShift.mp hop with rfl | ⟨-, rfl⟩ <;> nofun
  · intro e he
    obtain ⟨op, hop, rfl⟩ := changes_told he
    rcases mem_underShift.mp hop with rfl | ⟨-, rfl⟩
    · exact ⟨_, rfl⟩
    · exact ⟨_, rfl⟩
  · rintro keysym' id' code' heq hkey'
    cases heq
    cases hkey.symm.trans hkey'
    have hmem : (⟨.scancode code true, (s.held.lookup id).any Held.syntheticShift || added⟩ : Held) ∈
        values (s.keyDown keysym id).held := by
      rw [hs', apply_held]
      exact mem_values_insert.mpr (Or.inl rfl)
    refine ⟨(shifts_iff hgood).mpr (hgood.shifted _ hmem rfl), (hgood.far _).mpr (hgood.codes _ hmem code rfl), ?_⟩
    intro pre post hout
    rw [before_code (shifted_code hkey).1 ?_ hout]
    · rcases shift_of_press hadded.symm (hc.2 _ hkey).1 rfl with hdown | rfl
      · have hshifts := (shifts_iff h).mpr hdown
        split
        · exact Or.inl ((down_snoc _ _ _).mpr (Or.inl rfl))
        · rwa [List.append_nil]
      · exact Or.inl ((down_snoc _ _ _).mpr (Or.inl rfl))
    · rintro rfl
      rw [Bool.and_eq_true, Bool.not_eq_true', shiftIsDown, Bool.or_eq_false_iff] at hadded
      exact hadded.2.1

theorem proper_unicode (hdb : PressedSet db) (h : s.Good) {keysym : UInt32} {id : Int64} {ch : Char}
    (hkey : scancode keysym = some (.unicode ch)) (hc : s.Spared (.keyDown keysym id)) :
    (s.keyDown keysym id).Good ∧ ∃ out, Proper s (.keyDown keysym id) (s.keyDown keysym id) out := by
  have hs' : s.keyDown keysym id =
      ({ s with held := s.held.insert id ⟨.unicode ch, (s.held.lookup id).any Held.syntheticShift⟩ } : Client db).apply
        [.unicodeKeyPressed ch] := by
    simp only [keyDown, h.on, Bool.false_eq_true, if_false, hkey]
  have hold := hc.1.takes_over h.on hkey false
  rw [Bool.or_false] at hold
  have hgood : (s.keyDown keysym id).Good := by
    rw [hs']
    refine good_insert hdb h ?_ ?_ ?_ hold
    · intro op hop
      cases List.mem_singleton.mp hop
      exact ⟨.unicode ch, List.mem_cons_self, rfl⟩
    · intro code hcode
      cases hcode
    · intro hshifted
      cases hshifted
  have hsent : (s.keyDown keysym id).sent = s.sent ++ changes (db.pressed s.input) [.unicodeKeyPressed ch] := by
    rw [hs']
    refine apply_sent hdb _ ?_
    intro op hop
    cases List.mem_singleton.mp hop
    intro he
    cases he
  refine ⟨hgood, _, hgood.proper_of_presses hsent ?_ ?_⟩
  · intro e he
    obtain ⟨op, hop, rfl⟩ := changes_told he
    cases List.mem_singleton.mp hop
    exact ⟨_, rfl⟩
  · intro keysym' id' code heq hkey'
    cases heq
    cases hkey.symm.trans hkey'

theorem proper_pause (h : s.Good) {keysym : UInt32} {id : Int64} (hkey : scancode keysym = some .pause)
    (hc : s.Spared (.keyDown keysym id)) :
    (s.keyDown keysym id).Good ∧ ∃ out, Proper s (.keyDown keysym id) (s.keyDown keysym id) out := by
  have hs' : s.keyDown keysym id =
      ({ s with held := s.held.insert id ⟨.pause, (s.held.lookup id).any Held.syntheticShift⟩ } : Client db).sendPause := by
    simp only [keyDown, h.on, Bool.false_eq_true, if_false, hkey]
  have hold := hc.1.takes_over h.on hkey false
  rw [Bool.or_false] at hold
  have hnum := (hc.2 _ hkey).2 rfl
  have hgood : (s.keyDown keysym id).Good := by
    rw [hs']
    refine ⟨h.on, ?_, ?_, ?_, fun p hp => presses_insert hold (h.owned p hp)⟩
    · intro p
      refine (down_pause_iff ?_ ?_).trans (h.far p)
      · intro hd
        obtain ⟨held, hmem, hp⟩ := h.owned _ ((h.far _).mp hd)
        exact hnum held hmem (presses_numLock hp)
      · intro hd
        obtain ⟨held, -, hp⟩ := h.owned _ ((h.far _).mp hd)
        exact presses_ne held hp
    · intro held hmem code hcode
      rcases mem_values_insert.mp hmem with rfl | ⟨i, -, hi⟩
      · cases hcode
      · exact h.codes held (mem_values.mpr ⟨i, hi⟩) code hcode
    · intro held hmem hs
      rcases mem_values_insert.mp hmem with rfl | ⟨i, -, hi⟩
      · cases hs
      · exact h.shifted held (mem_values.mpr ⟨i, hi⟩) hs
  refine ⟨hgood, pauseEvents, ?_, ?_, ?_, ?_, hgood.none_held⟩
  · rw [hs']
    rfl
  · intro keysym' id' code heq hkey'
    cases heq
    cases hkey.symm.trans hkey'
  · intro pre e post heq he
    have hmem : e ∈ pauseEvents := by simp [heq]
    rcases he with rfl | rfl
    · exact absurd hmem (by decide)
    · exact absurd hmem (by decide)
  · intro code hrel held hmem hcode
    have hcode' : code = plain 0x45 := by simpa [pauseEvents] using hrel
    subst hcode'
    rw [hs'] at hmem
    rcases mem_values_insert.mp hmem with rfl | ⟨i, -, hi⟩
    · cases hcode
    · exact hnum held (mem_values.mpr ⟨i, hi⟩) hcode

/-- A call that spares what the others need is proper. -/
theorem proper_step (hdb : PressedSet db) (h : s.Good) (hc : s.Spared c) (hs : s.keyStep c = some s') :
    s'.Good ∧ ∃ out, Proper s c s' out := by
  cases c with
  | keyDown keysym id =>
    cases hs
    cases hkey : scancode keysym with
    | none =>
      have hs' : s.keyDown keysym id = s := by
        simp only [keyDown, h.on, Bool.false_eq_true, if_false, hkey]
      rw [hs']
      refine ⟨h, [], h.proper_of_releases (List.append_nil _).symm (by simp) ?_⟩
      intro keysym' id' code heq hkey'
      cases heq
      cases hkey.symm.trans hkey'
    | some key =>
      cases key with
      | scancode code needs => exact ⟨good_scancode hdb h hkey hc, proper_scancode hdb h hkey hc⟩
      | unicode ch => exact proper_unicode hdb h hkey hc
      | pause => exact proper_pause h hkey hc
  | keyUp id =>
    cases hs
    cases hl : s.held.lookup id with
    | none =>
      have hs' : s.keyUp id = s := by
        simp only [keyUp, h.on, Bool.false_eq_true, if_false, hl]
      rw [hs']
      refine ⟨h, [], h.proper_of_releases (List.append_nil _).symm (by simp) ?_⟩
      intro keysym' id' code heq
      cases heq
    | some held =>
      have hs' : s.keyUp id = ({ s with held := s.held.erase id } : Client db).apply (release held) := by
        simp only [keyUp, h.on, Bool.false_eq_true, if_false, hl]
      have hgood : (s.keyUp id).Good := hs' ▸ good_keyUp hdb h hc hl
      have hsent : (s.keyUp id).sent = s.sent ++ changes (db.pressed s.input) (release held) := by
        rw [hs']
        refine apply_sent hdb _ ?_
        intro op hop he
        obtain ⟨p, -, hp⟩ := mem_release_iff.mp ⟨op, hop, he⟩
        cases hp
      refine ⟨hgood, _, hgood.proper_of_releases hsent ?_ ?_⟩
      · intro e he
        obtain ⟨p, -, hp⟩ := mem_release_iff.mp (changes_told he)
        exact ⟨p, hp.symm⟩
      · intro keysym' id' code heq
        cases heq
  | releaseAllKeys order =>
    obtain ⟨ho, rfl⟩ := releaseAllKeys_some hs
    have hgood := good_releaseAllKeys hdb h ho
    have htold : ∀ e, (∃ op ∈ order.flatMap release, op.stroke = e) → ∃ p, e = .release p := by
      intro e he
      rw [← List.mem_map, flatMap_release_strokes, List.mem_map] at he
      obtain ⟨p, -, hp⟩ := he
      exact ⟨p, hp.symm⟩
    refine ⟨hgood, _, hgood.proper_of_releases (apply_sent hdb _ ?_) ?_ ?_⟩
    · intro op hop he
      obtain ⟨p, hp⟩ := htold _ ⟨op, hop, he⟩
      cases hp
    · intro e he
      exact htold e (changes_told he)
    · intro keysym' id' code heq
      cases heq

/-- Every call of a run in which each spares what the others need is proper. -/
theorem shift_proper (db : Database) (hdb : PressedSet db) (calls : List KeyCall)
    (hm : Meets keyStep Spared (start db) calls) (pre : List KeyCall) (c : KeyCall) (post : List KeyCall) (s s' : Client db)
    (heq : calls = pre ++ c :: post) (hr : run keyStep (start db) pre = some s) (hs : s.keyStep c = some s') :
    ∃ out, Proper s c s' out := by
  subst heq
  have hgood : s.Good :=
    trace_inv (fun _ s => s.Good) (good_start hdb) (fun _ _ _ _ hi hc hs => (proper_step hdb hi hc hs).1) hm.append_left hr
  exact (proper_step hdb hgood (hm.append_right hr).1 hs).2

end Client

/-- The set itself as a database. -/
def pressSet : Database where
  State := Press → Bool
  new := fun _ => false
  apply f ops := (fun p => pressedAfter p (f p) ops, changes f ops)
  pressed f p := f p

theorem pressedSet_pressSet : PressedSet pressSet where
  new_pressed _ := rfl
  apply_pressed _ _ _ := rfl
  apply_events _ _ _ := rfl

namespace Client

theorem shift_proper_repeated :
    ∃ s s' : Client pressSet, run keyStep (start pressSet) [.keyDown 0x21 7, .keyDown 0x21 7] = some s ∧
      s.keyStep (.keyUp 7) = some s' ∧ s'.sent.length = 4 ∧ ∃ out, Proper s (.keyUp 7) s' out := by
  have hm : Meets keyStep Spared (start pressSet) [.keyDown 0x21 7, .keyDown 0x21 7, .keyUp 7] := by decide +kernel
  refine ⟨_, _, rfl, rfl, by decide +kernel, ?_⟩
  exact shift_proper pressSet pressedSet_pressSet _ hm [.keyDown 0x21 7, .keyDown 0x21 7] (.keyUp 7) [] _ _ rfl rfl rfl

/-- Two shifted characters under the Shift that was added for the first, or that character and a Shift the user
presses after it: its release takes Shift from the second. -/
theorem shift_taken :
    (∃ s s' : Client pressSet, run keyStep (start pressSet) [.keyDown 0x21 1, .keyDown 0x40 2] = some s ∧
      s.keyStep (.keyUp 1) = some s' ∧ ¬∃ out, Proper s (.keyUp 1) s' out) ∧
    ∃ s s' : Client pressSet, run keyStep (start pressSet) [.keyDown 0x21 1, .keyDown 0xffe1 2] = some s ∧
      s.keyStep (.keyUp 1) = some s' ∧ ¬∃ out, Proper s (.keyUp 1) s' out := by
  refine ⟨⟨_, _, rfl, rfl, ?_⟩, ⟨_, _, rfl, rfl, ?_⟩⟩
  · rintro ⟨out, h⟩
    have hout : out = [.release (.key (plain 0x02)), .release (.key shift)] := by
      refine List.append_cancel_left (h.sent.symm.trans ?_)
      decide +kernel
    have hshifted := (h.lastShift [.release (.key (plain 0x02))] (.release (.key shift)) [] hout (Or.inl rfl) (by
      unfold Shifts
      decide +kernel) ⟨.scancode (plain 0x03) true, false⟩ (by decide +kernel)).2
    cases hshifted
  · rintro ⟨out, h⟩
    have hout : out = [.release (.key (plain 0x02)), .release (.key shift)] := by
      refine List.append_cancel_left (h.sent.symm.trans ?_)
      decide +kernel
    exact h.released shift (by simp [hout]) ⟨.scancode shift false, false⟩ (by decide +kernel) rfl

end Client

end Vento.Ironrdp
