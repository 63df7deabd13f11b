import Vento.Lib.Runs
/-!
# The input calls of a client

What a screen calls a client with, whatever its protocol, and when it has let go: every id that it
pressed has come up, or all were released, and the last mask of buttons it passed is empty.

`not_holds` and `quiet` are the two rules for a client: it holds no id if it drops one whenever that
is let go, and no button if an empty mask empties it.
-/

namespace Vento.Input

open Vento.Lib

/-- A pointer's position is the client's `π`; a release of all comes with the order the client's map happened
to be visited in. -/
inductive Call (π ω : Type) where
  | keyDown (keysym : UInt32) (id : Int64)
  | keyUp (id : Int64)
  | releaseAllKeys (order : ω)
  | pointer (at_ : π) (mask : UInt16)
  | setViewOnly (viewOnly : Bool)
deriving DecidableEq, Repr

namespace Call

variable {π ω : Type}

/-- The call lets go of the id. -/
def letsGo (id : Int64) : Call π ω → Bool
  | .keyUp id' => id' = id
  | .releaseAllKeys _ => true
  | _ => false

def mask? : Call π ω → Option UInt16
  | .pointer _ mask => some mask
  | _ => none

end Call

variable {π ω σ : Type} {calls : List (Call π ω)}

/-- Every id that went down was let go of since. -/
def LetGo (calls : List (Call π ω)) : Prop :=
  ∀ pre keysym id post, calls = pre ++ .keyDown keysym id :: post → ∃ c ∈ post, c.letsGo id = true

theorem letGo_nil : LetGo ([] : List (Call π ω)) := by
  intro pre keysym id post heq
  exact absurd heq.symm (List.append_ne_nil_of_right_ne_nil pre (List.cons_ne_nil _ post))

theorem letGo_cons {c : Call π ω} :
    LetGo (c :: calls) ↔ (∀ keysym id, c = .keyDown keysym id → ∃ c' ∈ calls, c'.letsGo id = true) ∧ LetGo calls := by
  constructor
  · intro h
    refine ⟨?_, ?_⟩
    · rintro keysym id rfl
      exact h [] keysym id calls rfl
    · intro pre keysym id post heq
      exact h (c :: pre) keysym id post (by rw [heq, List.cons_append])
  · rintro ⟨hc, h⟩ pre keysym id post heq
    cases pre with
    | nil =>
      cases heq
      exact hc keysym id rfl
    | cons c' pre =>
      cases heq
      exact h pre keysym id post rfl

instance LetGo.decidable : (calls : List (Call π ω)) → Decidable (LetGo calls)
  | [] => isTrue letGo_nil
  | c :: calls =>
    have := LetGo.decidable calls
    match c with
    | .keyDown keysym id =>
      decidable_of_iff ((∃ c' ∈ calls, c'.letsGo id = true) ∧ LetGo calls) (by simp [letGo_cons])
    | .keyUp _ | .releaseAllKeys _ | .pointer _ _ | .setViewOnly _ => decidable_of_iff (LetGo calls) (by simp [letGo_cons])

/-- The last mask passed. -/
def lastMask (calls : List (Call π ω)) : Option UInt16 := calls.foldl (fun m c => c.mask?.or m) none

/-- The id went down and was not let go of since. -/
def DownSince (calls : List (Call π ω)) (id : Int64) : Prop :=
  ∃ pre keysym post, calls = pre ++ .keyDown keysym id :: post ∧ ∀ c ∈ post, c.letsGo id = false

theorem DownSince.snoc {c : Call π ω} {id : Int64} (h : DownSince calls id) (hc : c.letsGo id = false) :
    DownSince (calls ++ [c]) id := by
  obtain ⟨pre, keysym, post, rfl, hpost⟩ := h
  refine ⟨pre, keysym, post ++ [c], by simp, ?_⟩
  intro c' hc'
  rcases List.mem_append.mp hc' with hmem | hmem
  · exact hpost c' hmem
  · cases List.mem_singleton.mp hmem
    exact hc

theorem DownSince.not_letGo {id : Int64} (h : DownSince calls id) : ¬LetGo calls := by
  obtain ⟨pre, keysym, post, heq, hpost⟩ := h
  intro hgo
  obtain ⟨c, hc, hgone⟩ := hgo pre keysym id post heq
  rw [hpost c hc] at hgone
  cases hgone

theorem lastMask_snoc (calls : List (Call π ω)) (c : Call π ω) :
    lastMask (calls ++ [c]) = c.mask?.or (lastMask calls) := by
  simp [lastMask]

section
variable {step : σ → Call π ω → Option σ} {ok : σ → Call π ω → Prop} {s₀ t : σ}

/-- A client that holds an id only since it went down, and not past its release, holds none once all are let
go of. -/
theorem not_holds (holds : σ → Int64 → Prop) (h0 : ∀ id, ¬holds s₀ id)
    (hstep : ∀ s c s', ok s c → step s c = some s' → ∀ id, holds s' id →
      (∃ keysym, c = .keyDown keysym id) ∨ (holds s id ∧ c.letsGo id = false))
    (hm : Meets step ok s₀ calls) (hr : run step s₀ calls = some t) (hgo : LetGo calls) (id : Int64) : ¬holds t id := by
  have hinv : ∀ id, holds t id → DownSince calls id := by
    refine trace_inv (fun calls s => ∀ id, holds s id → DownSince calls id) (fun id h => absurd h (h0 id)) ?_ hm hr
    intro tr s c s' hi hc hs id hid
    rcases hstep s c s' hc hs id hid with ⟨keysym, rfl⟩ | ⟨hold, hno⟩
    · exact ⟨tr, keysym, [], rfl, nofun⟩
    · exact (hi id hold).snoc hno
  intro hid
  exact (hinv id hid).not_letGo hgo

/-- A client that an empty mask quiets, and that nothing but a mask disturbs, is quiet while the last mask is
empty. -/
theorem quiet (Q : σ → Prop) (h0 : Q s₀)
    (hmask : ∀ s at_ s', ok s (.pointer at_ 0) → step s (.pointer at_ 0) = some s' → Q s')
    (hother : ∀ s c s', ok s c → c.mask? = none → step s c = some s' → Q s → Q s')
    (hm : Meets step ok s₀ calls) (hr : run step s₀ calls = some t) (hlast : ∀ m ∈ lastMask calls, m = 0) : Q t := by
  refine trace_inv (fun calls s => (∀ m ∈ lastMask calls, m = 0) → Q s) (fun _ => h0) ?_ hm hr hlast
  intro tr s c s' hi hc hs hl
  rw [lastMask_snoc] at hl
  cases hmask' : c.mask? with
  | none =>
    rw [hmask', Option.none_or] at hl
    exact hother s c s' hc hmask' hs (hi hl)
  | some m =>
    rw [hmask'] at hl
    cases c with
    | pointer at_ mask =>
      cases hmask'
      cases hl m rfl
      exact hmask s at_ s' hc hs
    | _ => cases hmask'

end

/-! ## What the far end hears -/

/-- A press or a release of something, or what is neither. -/
inductive Stroke (ι : Type) where
  | press (i : ι)
  | release (i : ι)
  | other
deriving DecidableEq, Repr

/-- A press was sent and no release since. -/
def Down {ι : Type} (sent : List (Stroke ι)) (i : ι) : Prop :=
  ∃ pre post, sent = pre ++ .press i :: post ∧ .release i ∉ post

variable {ι : Type}

theorem not_down_nil (i : ι) : ¬Down [] i := by
  rintro ⟨pre, post, heq, -⟩
  exact List.append_ne_nil_of_right_ne_nil pre (List.cons_ne_nil _ post) heq.symm

theorem down_cons (e : Stroke ι) (sent : List (Stroke ι)) (i : ι) :
    Down (e :: sent) i ↔ (e = .press i ∧ .release i ∉ sent) ∨ Down sent i := by
  constructor
  · rintro ⟨pre, post, heq, hpost⟩
    cases pre with
    | nil =>
      cases heq
      exact Or.inl ⟨rfl, hpost⟩
    | cons e' pre =>
      cases heq
      exact Or.inr ⟨pre, post, rfl, hpost⟩
  · rintro (⟨rfl, hno⟩ | ⟨pre, post, rfl, hpost⟩)
    · exact ⟨[], sent, rfl, hno⟩
    · exact ⟨e :: pre, post, rfl, hpost⟩

instance Down.decidable [DecidableEq ι] (i : ι) : (sent : List (Stroke ι)) → Decidable (Down sent i)
  | [] => isFalse (not_down_nil i)
  | e :: sent =>
    have := Down.decidable i sent
    decidable_of_iff _ (down_cons e sent i).symm

theorem down_snoc (sent : List (Stroke ι)) (e : Stroke ι) (i : ι) :
    Down (sent ++ [e]) i ↔ e = .press i ∨ (e ≠ .release i ∧ Down sent i) := by
  constructor
  · rintro ⟨pre, post, heq, hpost⟩
    rcases snoc_eq_append_cons.mp heq with ⟨-, rfl, -⟩ | ⟨post', rfl, rfl⟩
    · exact Or.inl rfl
    · rw [List.mem_append, not_or, List.mem_singleton] at hpost
      exact Or.inr ⟨fun he => hpost.2 he.symm, pre, post', rfl, hpost.1⟩
  · rintro (rfl | ⟨he, pre, post, rfl, hpost⟩)
    · exact ⟨sent, [], rfl, List.not_mem_nil⟩
    · refine ⟨pre, post ++ [e], by simp, ?_⟩
      rw [List.mem_append, not_or, List.mem_singleton]
      exact ⟨hpost, fun h => he h.symm⟩

theorem down_append {sent out : List (Stroke ι)} {i : ι} (h : Down (sent ++ out) i) :
    Down out i ∨ (Down sent i ∧ .release i ∉ out) := by
  obtain ⟨pre, post, heq, hpost⟩ := h
  rcases List.append_eq_append_iff.mp heq with ⟨mid, rfl, hout⟩ | ⟨mid, rfl, hpost'⟩
  · exact Or.inl ⟨mid, post, hout, hpost⟩
  · cases mid with
    | nil => exact Or.inl ⟨[], post, hpost'.symm, hpost⟩
    | cons x mid =>
      rw [List.cons_append] at hpost'
      obtain ⟨rfl, rfl⟩ := List.cons.inj hpost'
      rw [List.mem_append, not_or] at hpost
      exact Or.inr ⟨⟨pre, mid, rfl, hpost.1⟩, hpost.2⟩

theorem Down.press_mem {sent : List (Stroke ι)} {i : ι} (h : Down sent i) : .press i ∈ sent := by
  obtain ⟨pre, post, rfl, -⟩ := h
  simp

/-- Presses that are followed by their releases leave nothing down. -/
theorem down_of_strokes {sent : List (Stroke ι)} {i : ι} (is : List ι)
    (h : Down (sent ++ (is.map .press ++ is.map .release)) i) : Down sent i := by
  rw [← List.append_assoc] at h
  rcases down_append h with hup | ⟨hdown, hno⟩
  · have hmem := hup.press_mem
    simp at hmem
  · rcases down_append hdown with hpress | ⟨hold, -⟩
    · have hmem := hpress.press_mem
      simp only [List.mem_map, Stroke.press.injEq, exists_eq_right] at hmem
      exact absurd (List.mem_map_of_mem hmem) hno
    · exact hold

end Vento.Input
