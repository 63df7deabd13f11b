import Vento.Rfb.Input
import Vento.Ironrdp.Input
/-!
# View-only strands nothing

`Rfb.Input` and `Ironrdp.Input` together: what the far end of each is left with once a screen has let go of
every key and button, and what it hears while view-only is on.
-/

namespace Vento.ViewOnly

open Vento.Lib Vento.Input Vento.Rfb Vento.Ironrdp

/-- In a run whose calls are calm the far end holds nothing once all is let go of; in any run it hears nothing
but releases while view-only is on. -/
theorem strands_nothing (db : Database) (hdb : Documented db) :
    (∀ calls s, Meets Pad.step Pad.Calm Pad.start calls → run Pad.step Pad.start calls = some s → LetGo calls →
      (∀ m ∈ lastMask calls, m = 0) → (∀ k, ¬Unreleased s.keys.sent k) ∧ s.mask = 0) ∧
    (∀ calls s, Meets Client.step Client.Calm (Client.start db) calls → run Client.step (Client.start db) calls = some s →
      LetGo calls → (∀ m ∈ lastMask calls, m = 0) → ∀ p, ¬Down s.sent p) ∧
    (∀ calls s c s', run Pad.step Pad.start calls = some s → s.keys.viewOnly = true → s.step c = some s' →
      (∃ released : List UInt32, s'.keys.sent = s.keys.sent ++ released.map (⟨·, false⟩)) ∧ s'.pointers = s.pointers) ∧
    ∀ calls s c s', run Client.step (Client.start db) calls = some s → s.viewOnly = true → s.step c = some s' →
      ∃ out, s'.sent = s.sent ++ out ∧ ∀ e ∈ out, ∃ p, e = .release p := by
  refine ⟨?_, ?_, ?_, ?_⟩
  · intro calls s hm hr hgo hlast
    exact Pad.unstranded hm hr hgo hlast
  · intro calls s hm hr hgo hlast
    exact Client.unstranded hdb hm hr hgo hlast
  · intro calls s c s' _ hview hs
    exact Pad.viewOnly_releases hview hs
  · intro calls s c s' _ hview hs
    exact Client.viewOnly_releases hdb hview hs

/-! ## A database -/

/-- A key pressed again comes up first; a button pressed again says nothing. -/
def again : Press → List (Stroke Press)
  | .button _ => []
  | p => [.release p, .press p]

/-- What is pressed, and what one operation adds to the events. -/
def track (st : List Press) : Stroke Press → List Press × List (Stroke Press)
  | .press p => (st.insert p, if p ∈ st then again p else [.press p])
  | .release p => (st.filter (· ≠ p), if p ∈ st then [.release p] else [])
  | .other => (st, [.other])

def trackAll : List Press → List Operation → List Press × List (Stroke Press)
  | st, [] => (st, [])
  | st, op :: ops =>
    let (st', out) := track st op.stroke
    let (st'', rest) := trackAll st' ops
    (st'', out ++ rest)

/-- A database that keeps a list of what is pressed. -/
def tracker : Database where
  State := List Press
  new := []
  apply := trackAll
  pressed st p := p ∈ st

theorem mem_track {st : List Press} {e : Stroke Press} {p : Press} :
    p ∈ (track st e).1 ↔ e = .press p ∨ (e ≠ .release p ∧ p ∈ st) := by
  cases e with
  | press q => simp [track, eq_comm]
  | release q => simp [track, and_comm, eq_comm (a := p)]
  | other => simp [track]

theorem again_told {p : Press} {e : Stroke Press} (h : e ∈ again p) : e = .release p ∨ e = .press p := by
  cases p with
  | button b => cases h
  | _ => simpa [again] using h

theorem track_told {st : List Press} {e e' : Stroke Press} (h : e' ∈ (track st e).2) : (∃ p, e' = .release p) ∨ e = e' := by
  cases e with
  | press q =>
    unfold track at h
    dsimp only at h
    split at h
    · rcases again_told h with rfl | rfl
      · exact Or.inl ⟨q, rfl⟩
      · exact Or.inr rfl
    · exact Or.inr (List.mem_singleton.mp h).symm
  | release q =>
    unfold track at h
    dsimp only at h
    split at h
    · exact Or.inr (List.mem_singleton.mp h).symm
    · cases h
  | other => exact Or.inr (List.mem_singleton.mp h).symm

theorem track_down {st : List Press} {e : Stroke Press} {sent : List (Stroke Press)} (h : ∀ p, Down sent p → p ∈ st)
    {p : Press} (hp : Down (sent ++ (track st e).2) p) : p ∈ (track st e).1 := by
  rw [mem_track]
  rcases down_append hp with hnew | ⟨hold, hno⟩
  · rcases track_told hnew.press_mem with ⟨q, hq⟩ | he
    · cases hq
    · exact Or.inl he
  · refine Or.inr ⟨?_, h p hold⟩
    rintro rfl
    exact hno (by simp [track, h p hold])

theorem trackAll_pressed {p : Press} {ops : List Operation} :
    ∀ {st : List Press}, decide (p ∈ (trackAll st ops).1) = pressedAfter p (decide (p ∈ st)) ops := by
  induction ops with
  | nil => exact fun {st} => rfl
  | cons op ops ih =>
    intro st
    have hone : decide (p ∈ (track st op.stroke).1) =
        if op.stroke = .press p then true else if op.stroke = .release p then false else decide (p ∈ st) := by
      simp only [mem_track]
      split
      · simp [*]
      · split <;> simp [*]
    calc
      decide (p ∈ (trackAll (track st op.stroke).1 ops).1) =
          pressedAfter p (decide (p ∈ (track st op.stroke).1)) ops := ih
      _ = pressedAfter p (decide (p ∈ st)) (op :: ops) := by
        rw [hone]
        rfl

theorem trackAll_down {ops : List Operation} {p : Press} :
    ∀ {st : List Press} {sent : List (Stroke Press)}, (∀ p, Down sent p → p ∈ st) →
      Down (sent ++ (trackAll st ops).2) p → p ∈ (trackAll st ops).1 := by
  induction ops with
  | nil =>
    intro st sent h hp
    rw [trackAll, List.append_nil] at hp
    exact h p hp
  | cons op ops ih =>
    intro st sent h hp
    refine ih (fun _ => track_down h) ?_
    rw [List.append_assoc]
    exact hp

theorem trackAll_told {ops : List Operation} {e : Stroke Press} :
    ∀ {st : List Press}, e ∈ (trackAll st ops).2 → (∃ p, e = .release p) ∨ ∃ op ∈ ops, op.stroke = e := by
  induction ops with
  | nil => exact nofun
  | cons op ops ih =>
    intro st he
    rcases List.mem_append.mp he with hone | hrest
    · rcases track_told hone with hrel | heq
      · exact Or.inl hrel
      · exact Or.inr ⟨op, List.mem_cons_self, heq⟩
    · rcases ih hrest with hrel | ⟨op', hmem, heq⟩
      · exact Or.inl hrel
      · exact Or.inr ⟨op', List.mem_cons_of_mem op hmem, heq⟩

theorem documented_tracker : Documented tracker where
  new_pressed _ := rfl
  apply_pressed _ _ _ := trackAll_pressed
  apply_down := by
    intro (st : List Press) ops sent h p hp
    have hst : ∀ q, Down sent q → q ∈ st := fun q hq => of_decide_eq_true (h q hq)
    show decide (p ∈ (trackAll st ops).1) = true
    exact decide_eq_true (trackAll_down hst hp)
  apply_told _ _ _ he := trackAll_told he

/-! ## Two runs -/

section
variable {π ω : Type} (a b : π)

/-- A key typed and a button clicked, then view-only. -/
def typed : List (Call π ω) := [.keyDown 0x61 1, .pointer a 1, .keyUp 1, .pointer b 0, .setViewOnly true]

/-- The same, with view-only on before the key and the button come up. -/
def gated : List (Call π ω) := [.keyDown 0x61 1, .pointer a 1, .setViewOnly true, .keyUp 1, .pointer b 0]

end

theorem strands_nothing_typed :
    (∃ s, run Pad.step Pad.start (typed (.absolute 5 5, false) (.absolute 6 5, false)) = some s ∧
      s.keys.sent = [⟨0x61, true⟩, ⟨0x61, false⟩] ∧ s.pointers.length = 2 ∧ (∀ k, ¬Unreleased s.keys.sent k) ∧ s.mask = 0) ∧
    ∃ s s', run Client.step (Client.start tracker) (typed (5, 5) (6, 5)) = some s ∧ s.sent.length = 6 ∧
      (∀ p, ¬Down s.sent p) ∧ s.viewOnly = true ∧ s.step (.keyDown 0x62 2) = some s' ∧
      ∃ out, s'.sent = s.sent ++ out ∧ ∀ e ∈ out, ∃ p, e = .release p := by
  obtain ⟨hrfb, hrdp, -, hview⟩ := strands_nothing tracker documented_tracker
  refine ⟨⟨_, rfl, by decide +kernel, by decide +kernel, ?_⟩, _, _, rfl, by decide +kernel, ?_, rfl, rfl, ?_⟩
  · refine hrfb (typed _ _) _ (by decide +kernel) rfl (by decide) ?_
    rintro m ⟨⟩
    rfl
  · refine hrdp (typed _ _) _ (by decide +kernel) rfl (by decide) ?_
    rintro m ⟨⟩
    rfl
  · exact hview (typed _ _) _ (.keyDown 0x62 2) _ rfl rfl rfl

/-- With view-only on in between, each far end keeps the key and the button. -/
theorem gated_stays :
    (∃ s, run Pad.step Pad.start (gated (.absolute 5 5, false) (.absolute 6 5, false)) = some s ∧
      LetGo (gated (.absolute 5 5, false) (.absolute 6 5, false) : List (Call Rfb.At (List UInt32))) ∧
      lastMask (gated (.absolute 5 5, false) (.absolute 6 5, false) : List (Call Rfb.At (List UInt32))) = some 0 ∧
      Unreleased s.keys.sent 0x61 ∧ s.mask = 1) ∧
    ∃ s, run Client.step (Client.start tracker) (gated (5, 5) (6, 5)) = some s ∧
      LetGo (gated (5, 5) (6, 5) : List (Call (UInt16 × UInt16) (List Ironrdp.Held))) ∧
      lastMask (gated (5, 5) (6, 5) : List (Call (UInt16 × UInt16) (List Ironrdp.Held))) = some 0 ∧
      Down s.sent (.key (plain 0x1e)) ∧ Down s.sent (.button .left) := by
  refine ⟨⟨_, rfl, by decide, rfl, ⟨[], [], by decide +kernel, nofun⟩, by decide +kernel⟩,
    _, rfl, by decide, rfl, ⟨[], [.other, .press (.button .left)], by decide +kernel, by decide⟩,
    [.press (.key (plain 0x1e)), .other], [], by decide +kernel, nofun⟩

end Vento.ViewOnly
