import Vento.App.Session
/-!
# What becomes of each prompt

`Session.java` holds a prompt until a screen shows it, and `Prompt.java` lets it be answered, cancelled or withdrawn once.
`prompts_accounted` says of every run what each prompt has come to, and that the calls about it are those and no others.
-/

namespace Vento.App

open Vento.Lib

/-- Whose prompt a call is about. -/
def Call.about {P V : Type} : Call P V → Option P
  | .present _ p => some p
  | .deliver p _ => some p
  | .dismiss _ p => some p
  | .disconnect => none
  | .destroy => none

inductive Fate (V : Type)
  | new
  /-- In the queue. -/
  | waiting
  | shown (v : V)
  | answered (v : V) (ok : Bool)
  /-- Withdrawn while it was shown, or before. -/
  | dismissed (v : V)
  | withdrawn
  /-- By the close of the session, unseen. -/
  | cancelled
deriving DecidableEq

namespace Fate

variable {P V : Type}

def prompt : Fate V → Prompt V
  | new => {}
  | waiting => ⟨false, false, some .queue⟩
  | shown v => ⟨false, false, some (.dialog v)⟩
  | answered v _ => ⟨true, false, some (.dialog v)⟩
  | dismissed _ => ⟨true, true, none⟩
  | withdrawn => ⟨true, true, none⟩
  | cancelled => ⟨true, false, some .queue⟩

/-- All that was ever called about it, in order. -/
def calls (p : P) : Fate V → List (Call P V)
  | new => []
  | waiting => []
  | shown v => [.present v p]
  | answered v ok => [.present v p, .deliver p ok]
  | dismissed v => [.present v p, .dismiss v p]
  | withdrawn => []
  | cancelled => [.deliver p false]

end Fate

section Accounted

variable {P V B : Type}

/-- The prompts that screens were given, in order. -/
def shownIn (calls : List (Call P V)) : List P := calls.filterMap fun c => match c with | .present _ p => some p | _ => none

theorem shownIn_append (cs ds : List (Call P V)) : shownIn (cs ++ ds) = shownIn cs ++ shownIn ds := List.filterMap_append

def askedIn (as : List (Act P V B)) : List P := as.filterMap fun a => match a with | .ask p => some p | _ => none

variable [DecidableEq P]

def callsOf (p : P) (calls : List (Call P V)) : List (Call P V) := calls.filter fun c => c.about = some p

/-- Each prompt has one fate, which its record and its calls are of, and those not withdrawn or cancelled are shown in the
order they were asked. -/
structure Accounted (asked : List P) (fate : P → Fate V) (o : Opened P V B) : Prop where
  prompt : ∀ p, o.prompts p = (fate p).prompt
  calls : ∀ p, callsOf p o.calls = (fate p).calls p
  known : ∀ p, p ∈ asked ↔ fate p ≠ .new
  waiting : ∀ p, p ∈ o.session.pending ↔ fate p = .waiting
  once : asked.Nodup
  order : (shownIn o.calls ++ o.session.pending).Sublist asked

namespace Accounted

variable {asked : List P} {fate : P → Fate V} {o : Opened P V B}

/-- A step is about one prompt, which goes on to another fate. -/
theorem update {p : P} {f : Fate V} {o' : Opened P V B} {l : List (Call P V)} {asked' : List P} (h : Accounted asked fate o)
    (hprompts : o'.prompts = Function.update o.prompts p f.prompt) (hcalls : o'.calls = o.calls ++ l)
    (hnew : ∀ c ∈ l, c.about = some p) (hf : (fate p).calls p ++ l = f.calls p) (hne : f ≠ .new)
    (hasked : ∀ q, q ∈ asked' ↔ q ∈ asked ∨ q = p) (hothers : ∀ q, q ≠ p → (q ∈ o'.session.pending ↔ q ∈ o.session.pending))
    (hwaits : p ∈ o'.session.pending ↔ f = .waiting) (honce : asked'.Nodup)
    (horder : (shownIn o'.calls ++ o'.session.pending).Sublist asked') : Accounted asked' (Function.update fate p f) o' where
  prompt q := by
    rw [hprompts]
    by_cases hq : q = p
    · rw [hq, Function.update_self, Function.update_self]
    · rw [Function.update_of_ne hq, Function.update_of_ne hq, h.prompt]
  calls q := by
    rw [hcalls, callsOf, List.filter_append]
    by_cases hq : q = p
    · subst hq
      have hall : l.filter (fun c => c.about = some q) = l := List.filter_eq_self.2 fun c hc => by simp [hnew c hc]
      rw [Function.update_self, hall, ← hf, ← h.calls]
      rfl
    · have hnone : l.filter (fun c => c.about = some q) = [] := by
        refine List.filter_eq_nil_iff.2 fun c hc => ?_
        simpa [hnew c hc] using fun h => hq h.symm
      rw [Function.update_of_ne hq, hnone, List.append_nil]
      exact h.calls q
  known q := by
    by_cases hq : q = p
    · subst hq
      rw [Function.update_self, hasked]
      exact ⟨fun _ => hne, fun _ => .inr rfl⟩
    · rw [Function.update_of_ne hq, hasked, ← h.known]
      exact or_iff_left hq
  waiting q := by
    by_cases hq : q = p
    · subst hq
      rw [Function.update_self]
      exact hwaits
    · rw [Function.update_of_ne hq, hothers q hq]
      exact h.waiting q
  once := honce
  order := horder

theorem pending_nodup (h : Accounted asked fate o) : o.session.pending.Nodup :=
  (List.nodup_append.1 (h.order.nodup h.once)).2.1

/-- What is called besides is about no prompt. -/
theorem besides {o' : Opened P V B} {l : List (Call P V)} (h : Accounted asked fate o) (hprompts : o'.prompts = o.prompts)
    (hcalls : o'.calls = o.calls ++ l) (hnew : ∀ c ∈ l, c.about = none)
    (hpending : o'.session.pending = o.session.pending) : Accounted asked fate o' where
  prompt p := by rw [hprompts, h.prompt]
  calls p := by
    have hnone : l.filter (fun c => c.about = some p) = [] := by
      refine List.filter_eq_nil_iff.2 fun c hc => ?_
      simp [hnew c hc]
    rw [hcalls, callsOf, List.filter_append, hnone, List.append_nil]
    exact h.calls p
  known := h.known
  waiting p := by rw [hpending, h.waiting]
  once := h.once
  order := by
    have hnone : shownIn l = [] := by
      refine List.filterMap_eq_nil_iff.2 fun c hc => ?_
      cases c with
      | present v p => cases hnew _ hc
      | _ => rfl
    rw [hcalls, hpending, shownIn_append, hnone, List.append_nil]
    exact h.order

theorem on (h : Accounted asked fate o) {f : Session P V B → Session P V B} (hf : (f o.session).pending = o.session.pending) :
    Accounted asked fate (o.on f) :=
  h.besides (l := []) rfl (List.append_nil _).symm (fun _ hc => by cases hc) hf

theorem showPrompt {p : P} {rest : List P} (h : Accounted asked fate o) (hp : o.session.pending = p :: rest) (v : V) :
    Accounted asked (Function.update fate p (.shown v)) ((o.setPending rest).showPrompt v p) := by
  have hwait : fate p = .waiting := (h.waiting p).1 (hp ▸ List.mem_cons_self)
  have hnodup := h.pending_nodup
  rw [hp, List.nodup_cons] at hnodup
  have hmem : p ∈ asked := (h.known p).2 (by simp [hwait])
  refine h.update (l := [.present v p]) ?_ rfl (by simp [Call.about]) (by simp [hwait, Fate.calls]) (by simp) ?_ ?_ ?_ h.once ?_
  · have hprompt := h.prompt p
    rw [hwait] at hprompt
    simp [Opened.showPrompt, Opened.setPrompt, Opened.call, Opened.setPending, hprompt, Fate.prompt]
  · intro q
    exact ⟨.inl, fun hq => hq.elim id fun heq => heq ▸ hmem⟩
  · intro q hq
    change q ∈ rest ↔ q ∈ o.session.pending
    rw [hp, List.mem_cons]
    exact (or_iff_right hq).symm
  · exact iff_of_false hnodup.1 (by simp)
  · have horder := h.order
    rw [hp] at horder
    change (shownIn (o.calls ++ [Call.present v p]) ++ rest).Sublist asked
    rwa [shownIn_append, List.append_assoc]

theorem cancel {p : P} {rest : List P} (h : Accounted asked fate o) (hp : o.session.pending = p :: rest) :
    Accounted asked (Function.update fate p .cancelled) ((o.setPending rest).cancel p) := by
  have hwait : fate p = .waiting := (h.waiting p).1 (hp ▸ List.mem_cons_self)
  have hprompt : o.prompts p = ⟨false, false, some .queue⟩ := by rw [h.prompt, hwait]; rfl
  have hnodup := h.pending_nodup
  rw [hp, List.nodup_cons] at hnodup
  have hmem : p ∈ asked := (h.known p).2 (by simp [hwait])
  have heq : (o.setPending rest).cancel p =
      ((o.setPending rest).setPrompt p ⟨true, false, some .queue⟩).call (.deliver p false) := by
    rw [Opened.cancel, Opened.answer]
    change (if (o.prompts p).answered then _ else _) = _
    rw [hprompt, if_neg Bool.false_ne_true]
    simp [Opened.setPending, hprompt]
  rw [heq]
  refine h.update (l := [.deliver p false]) rfl rfl (by simp [Call.about]) (by simp [hwait, Fate.calls]) (by simp) ?_ ?_ ?_
    h.once ?_
  · intro q
    exact ⟨.inl, fun hq => hq.elim id fun heq => heq ▸ hmem⟩
  · intro q hq
    change q ∈ rest ↔ q ∈ o.session.pending
    rw [hp, List.mem_cons]
    exact (or_iff_right hq).symm
  · exact iff_of_false hnodup.1 (by simp)
  · have horder := h.order
    rw [hp] at horder
    change (shownIn (o.calls ++ [Call.deliver p false]) ++ rest).Sublist asked
    rw [shownIn_append]
    change (shownIn o.calls ++ [] ++ rest).Sublist asked
    rw [List.append_nil]
    exact ((List.sublist_cons_self p rest).append_left _).trans horder

/-- What is pending is shown, all of it. -/
theorem showAll {ps : List P} (h : Accounted asked fate o) (hp : o.session.pending = ps) (v : V) :
    (∃ fate, Accounted asked fate (Opened.showAll v ps o)) ∧ (Opened.showAll v ps o).session.pending = [] := by
  induction ps generalizing o fate with
  | nil => exact ⟨⟨fate, h⟩, hp⟩
  | cons p ps ih => exact ih (h.showPrompt hp v) rfl

theorem cancelAll {ps : List P} (h : Accounted asked fate o) (hp : o.session.pending = ps) :
    (∃ fate, Accounted asked fate (Opened.cancelAll ps o)) ∧ (Opened.cancelAll ps o).session.pending = [] := by
  induction ps generalizing o fate with
  | nil => exact ⟨⟨fate, h⟩, hp⟩
  | cons p ps ih =>
    refine ih (h.cancel hp) ?_
    rw [Opened.cancel, Opened.answer_session]
    rfl

theorem flushPrompts (h : Accounted asked fate o) :
    (∃ fate, Accounted asked fate o.flushPrompts) ∧ (o.session.screen ≠ none → o.flushPrompts.session.pending = []) := by
  rw [Opened.flushPrompts]
  split
  · obtain ⟨h', hp⟩ := h.showAll rfl _
    exact ⟨h', fun _ => hp⟩
  · next hnone => exact ⟨⟨fate, h⟩, fun hs => absurd hnone hs⟩

/-- A new prompt waits. -/
theorem asks {p : P} (h : Accounted asked fate o) (hp : o.prompts p = {}) :
    Accounted (asked ++ [p]) (Function.update fate p .waiting) (o.enqueue p) := by
  have hnew : fate p = .new := by
    have hprompt := h.prompt p
    rw [hp] at hprompt
    cases hf : fate p with
    | new => rfl
    | _ => rw [hf] at hprompt; cases hprompt
  have hnot : p ∉ asked := fun hmem => (h.known p).1 hmem hnew
  refine h.update (l := []) ?_ (List.append_nil _).symm (by simp) (by simp [hnew, Fate.calls]) (by simp) ?_ ?_ ?_ ?_ ?_
  · rw [Opened.enqueue, hp]
    rfl
  · intro q
    rw [List.mem_append, List.mem_singleton]
  · intro q hq
    change q ∈ o.session.pending ++ [p] ↔ _
    rw [List.mem_append, List.mem_singleton]
    exact or_iff_left hq
  · exact iff_of_true (List.mem_append_right _ (List.mem_singleton_self p)) rfl
  · exact List.nodup_append.2 ⟨h.once, List.nodup_singleton p, fun q hq r hr heq =>
      hnot (List.mem_singleton.1 hr ▸ heq ▸ hq)⟩
  · change (shownIn o.calls ++ (o.session.pending ++ [p])).Sublist (asked ++ [p])
    rw [← List.append_assoc]
    exact h.order.append_right [p]

/-- What a shown prompt goes on to, with one call more. -/
theorem fromShown {p : P} {v : V} {f : Fate V} {c : Call P V} (h : Accounted asked fate o) (hs : fate p = .shown v)
    (hc : c.about = some p) (hno : shownIn [c] = []) (hf : f.calls p = [.present v p, c]) (hwait : f ≠ .waiting) :
    Accounted asked (Function.update fate p f) ((o.setPrompt p f.prompt).call c) := by
  have hmem : p ∈ asked := (h.known p).2 (by simp [hs])
  have hnot : p ∉ o.session.pending := fun hmem => by simp [(h.waiting p).1 hmem] at hs
  refine h.update (l := [c]) rfl rfl (by simp [hc]) (by rw [hs, hf]; rfl) ?_ ?_ (fun q _ => Iff.rfl) ?_ h.once ?_
  · rintro rfl
    cases hf
  · intro q
    exact ⟨.inl, fun hq => hq.elim id fun heq => heq ▸ hmem⟩
  · exact iff_of_false hnot hwait
  · change (shownIn (o.calls ++ [c]) ++ o.session.pending).Sublist asked
    rw [shownIn_append, hno, List.append_nil]
    exact h.order

/-- Only the first answer counts, and none after a withdrawal. -/
theorem answer {p : P} (h : Accounted asked fate o) (hne : o.prompts p ≠ {}) (hp : p ∉ o.session.pending) (ok : Bool) :
    ∃ fate, Accounted asked fate (o.answer p ok) := by
  rw [Opened.answer]
  split
  · exact ⟨fate, h⟩
  · next hopen =>
    have hprompt := h.prompt p
    cases hf : fate p with
    | shown v =>
      rw [hf] at hprompt
      rw [hprompt]
      exact ⟨_, h.fromShown (f := .answered v ok) hf rfl rfl rfl (by simp)⟩
    | new => exact absurd (hprompt.trans (congrArg Fate.prompt hf)) hne
    | waiting => exact absurd ((h.waiting p).2 hf) hp
    | _ =>
      rw [hf] at hprompt
      rw [hprompt] at hopen
      exact absurd rfl hopen

/-- A prompt in the queue is taken from it, and a dialog is closed. -/
theorem withdraw {p : P} (h : Accounted asked fate o) (hne : o.prompts p ≠ {}) : ∃ fate, Accounted asked fate (o.withdraw p) := by
  rw [Opened.withdraw]
  split
  · exact ⟨fate, h⟩
  · next hopen =>
    have hprompt := h.prompt p
    cases hf : fate p with
    | shown v =>
      rw [hf] at hprompt
      rw [hprompt]
      exact ⟨_, h.fromShown (f := .dismissed v) hf rfl rfl rfl (by simp)⟩
    | waiting =>
      have hmem : p ∈ asked := (h.known p).2 (by simp [hf])
      rw [hf] at hprompt
      rw [hprompt]
      refine ⟨Function.update fate p .withdrawn, ?_⟩
      refine h.update (l := []) rfl (List.append_nil _).symm (by simp) (by simp [hf, Fate.calls]) (by simp) ?_ ?_ ?_ h.once ?_
      · intro q
        exact ⟨.inl, fun hq => hq.elim id fun heq => heq ▸ hmem⟩
      · intro q hq
        exact List.mem_erase_of_ne hq
      · exact iff_of_false (h.pending_nodup.not_mem_erase) (by simp)
      · exact (List.erase_sublist.append_left _).trans h.order
    | new => exact absurd (hprompt.trans (congrArg Fate.prompt hf)) hne
    | _ =>
      rw [hf] at hprompt
      rw [hprompt] at hopen
      exact absurd rfl hopen

theorem release (h : Accounted asked fate o) : (∃ fate, Accounted asked fate o.release) ∧ o.release.session.pending = [] := by
  obtain ⟨⟨fate', h'⟩, hp⟩ := h.cancelAll rfl
  refine ⟨⟨fate', ?_⟩, hp⟩
  exact h'.besides (l := [.destroy]) rfl rfl (by simp [Call.about]) rfl

theorem close (h : Accounted asked fate o) : ∃ fate, Accounted asked fate o.close := by
  rw [Opened.close]
  split
  · exact ⟨fate, h⟩
  · exact (Accounted.release (o := o.closing) (h.on rfl)).1

theorem backendDisconnect (h : Accounted asked fate o) (during : List (BackendState × Option Text)) :
    Accounted asked fate (o.backendDisconnect during) := by
  have hkept : ∀ (s : Session P V B), (during.foldl (fun s r => s.onState r.1 r.2) s).pending = s.pending := by
    intro s
    induction during generalizing s with
    | nil => rfl
    | cons r rs ih =>
      rw [List.foldl_cons, ih, Session.onState]
      split <;> rfl
  exact h.besides (l := [.disconnect]) rfl rfl (by simp [Call.about]) (hkept o.session)

end Accounted

variable [DecidableEq V]

/-- A screen leaves no prompt waiting. -/
def Idle (o : Opened P V B) : Prop := o.session.screen ≠ none → o.session.pending = []

/-- What still waits in a closed session was asked after it closed. -/
def Late (key : Text) (n : Nat) (now : Int) (as : List (Act P V B)) (o : Opened P V B) : Prop :=
  o.session.closed = true → ∀ p ∈ o.session.pending, ∃ pre post u, as = pre ++ .ask p :: post ∧
    run Opened.step (Opened.opened key n now) pre = some u ∧ u.session.closed = true

/-- What most acts do: nothing new waits, no screen comes, and the session does not close. -/
structure Kept (s s' : Session P V B) : Prop where
  closed : s'.closed = s.closed
  screen : s'.screen ≠ none → s.screen ≠ none
  pending : s'.pending ⊆ s.pending

omit [DecidableEq P] [DecidableEq V] in
theorem Kept.onStates (s : Session P V B) (rs : List (BackendState × Option Text)) :
    Kept s (rs.foldl (fun s r => s.onState r.1 r.2) s) := by
  induction rs generalizing s with
  | nil => exact ⟨rfl, id, List.Subset.refl _⟩
  | cons r rs ih =>
    obtain ⟨hc, hs, hp⟩ := ih (s.onState r.1 r.2)
    have hone : Kept s (s.onState r.1 r.2) := by
      rw [Session.onState]
      split
      · exact ⟨rfl, id, List.Subset.refl _⟩
      · exact ⟨rfl, by simp [Session.report], List.Subset.refl _⟩
    exact ⟨hc.trans hone.closed, fun h => hone.screen (hs h), List.Subset.trans hp hone.pending⟩

omit [DecidableEq V] in
theorem Kept.withdraw (o : Opened P V B) (p : P) : Kept o.session (o.withdraw p).session := by
  rw [Opened.withdraw]
  split
  · exact ⟨rfl, id, List.Subset.refl _⟩
  · cases (o.prompts p).onWithdrawn with
    | none => exact ⟨rfl, id, List.Subset.refl _⟩
    | some holder =>
      cases holder with
      | queue => exact ⟨rfl, id, List.erase_subset⟩
      | dialog v => exact ⟨rfl, id, List.Subset.refl _⟩

section Step

variable {key : Text} {n : Nat} {now : Int} {as : List (Act P V B)} {o o' : Opened P V B} {a : Act P V B}

omit [DecidableEq P] [DecidableEq V] in
theorem Idle.keep (h : Idle o) (hk : Kept o.session o'.session) : Idle o' := by
  intro hs
  exact List.subset_nil.1 (h (hk.screen hs) ▸ hk.pending)

theorem Late.append {b : Act P V B} (h : Late key n now as o) : Late key n now (as ++ [b]) o := by
  intro hc p hp
  obtain ⟨pre, post, u, heq, hu⟩ := h hc p hp
  exact ⟨pre, post ++ [b], u, by rw [heq, List.append_assoc, List.cons_append], hu⟩

theorem Late.keep (h : Late key n now as o) (hk : Kept o.session o'.session) : Late key n now as o' := by
  intro hc p hp
  exact h (hk.closed ▸ hc) p (hk.pending hp)

/-- All that is known of the prompts after a run. -/
structure Handled (key : Text) (n : Nat) (now : Int) (as : List (Act P V B)) (o : Opened P V B) : Prop where
  accounted : ∃ fate, Accounted (askedIn as) fate o
  idle : Idle o
  late : Late key n now as o

namespace Handled

theorem keep (h : Handled key n now as o) (hacc : ∃ fate, Accounted (askedIn as) fate o') (hk : Kept o.session o'.session)
    (ha : askedIn [a] = []) : Handled key n now (as ++ [a]) o' := by
  refine ⟨?_, h.idle.keep hk, (h.late.keep hk).append⟩
  have hasks : askedIn (as ++ [a]) = askedIn as ++ askedIn [a] := List.filterMap_append
  rwa [hasks, ha, List.append_nil]

/-- A session that closes leaves nothing waiting. -/
theorem release (h : ∃ fate, Accounted (askedIn as) fate o) (ha : askedIn [a] = []) : Handled key n now (as ++ [a]) o.release := by
  obtain ⟨fate, h⟩ := h
  obtain ⟨hacc, hnil⟩ := h.release
  refine ⟨?_, fun _ => hnil, ?_⟩
  · have hasks : askedIn (as ++ [a]) = askedIn as ++ askedIn [a] := List.filterMap_append
    rwa [hasks, ha, List.append_nil]
  · intro _ p hp
    rw [hnil] at hp
    cases hp

theorem close (hacc : ∃ fate, Accounted (askedIn as) fate o') (h : Handled key n now as o) (hk : Kept o.session o'.session)
    (ha : askedIn [a] = []) : Handled key n now (as ++ [a]) o'.close := by
  rw [Opened.close]
  split
  · exact h.keep hacc hk ha
  · obtain ⟨fate, hacc⟩ := hacc
    exact release ⟨fate, hacc.on rfl⟩ ha

theorem step (hr : run Opened.step (Opened.opened key n now) as = some o) (h : Handled key n now as o)
    (ha : o.step a = some o') : Handled key n now (as ++ [a]) o' := by
  obtain ⟨fate, hacc⟩ := h.accounted
  have hsame : Kept o.session o.session := ⟨rfl, id, List.Subset.refl _⟩
  cases a with
  | ask p =>
    obtain ⟨hp, ha⟩ := Option.ite_none_right_eq_some.1 ha
    cases ha
    obtain ⟨hacc', hflush⟩ := (hacc.asks hp).flushPrompts
    have hasks : askedIn (as ++ [Act.ask p]) = askedIn as ++ [p] := List.filterMap_append
    refine ⟨hasks ▸ hacc', ?_, ?_⟩
    · obtain ⟨pending, heq⟩ := o.queue_session p
      intro hs
      rw [heq] at hs
      exact hflush hs
    · intro hc q hq
      have hoc : o.session.closed = true := (o.queue_session p).closed ▸ hc
      -- With a screen there is nothing left; without one it is what waited before, or the new one.
      by_cases hs : o.session.screen = none
      · have hnone : (o.enqueue p).session.screen = none := hs
        rw [Opened.queue, Opened.flushPrompts_of_none hnone] at hq
        rcases List.mem_append.1 hq with hq | hq
        · exact h.late.append hoc q hq
        · cases List.mem_singleton.1 hq
          exact ⟨as, [], o, rfl, hr, hoc⟩
      · rw [show (o.queue p).session.pending = [] from hflush hs] at hq
        cases hq
  | attach v live relative =>
    cases ha
    have hpend : (o.session.catchUp v live relative).pending = o.session.pending := by
      obtain ⟨st, d, heq⟩ := o.session.reread_eq live
      rw [Session.catchUp, heq]
    obtain ⟨hacc', hflush⟩ := Accounted.flushPrompts (o := o.on (·.catchUp v live relative)) (hacc.on hpend)
    have hnil := hflush (Option.some_ne_none _)
    refine ⟨?_, fun _ => hnil, ?_⟩
    · have hasks : askedIn (as ++ [Act.attach v live relative]) = askedIn as := by simp [askedIn]
      exact hasks ▸ hacc'
    · intro _ q hq
      rw [show (o.attach v live relative).session.pending = [] from hnil] at hq
      cases hq
  | answer p ok =>
    obtain ⟨⟨hne, hp⟩, ha⟩ := Option.ite_none_right_eq_some.1 ha
    cases ha
    exact h.keep (hacc.answer hne hp ok) ((o.answer_session p ok).symm ▸ hsame) rfl
  | withdraw p =>
    obtain ⟨hne, ha⟩ := Option.ite_none_right_eq_some.1 ha
    cases ha
    exact h.keep (hacc.withdraw hne) (.withdraw o p) rfl
  | state st d =>
    cases ha
    refine h.keep ⟨fate, hacc.on ?_⟩ (Kept.onStates o.session [(st, d)]) rfl
    rw [Session.onState]
    split <;> rfl
  | status text =>
    cases ha
    refine h.keep ⟨fate, hacc.on ?_⟩ ?_ rfl
    · rw [Session.onStatus]
      split <;> rfl
    · rw [Opened.on_session, Session.onStatus]
      split
      · exact hsame
      · exact ⟨rfl, by simp, List.Subset.refl _⟩
  | detach v =>
    cases ha
    refine h.keep ⟨fate, hacc.on ?_⟩ ?_ rfl
    · rw [Session.detach]
      split <;> rfl
    · rw [Opened.on_session, Session.detach]
      split
      · exact ⟨rfl, fun hs => absurd rfl hs, List.Subset.refl _⟩
      · exact hsame
  | timedOut minutes label during =>
    cases ha
    by_cases htimes : o.timesOut minutes = true
    · rw [Opened.timedOut_eq htimes]
      have hacc' := (hacc.backendDisconnect during).on (f := (·.setDetail (Opened.timeoutReason label))) rfl
      exact release ⟨fate, hacc'.on rfl⟩ rfl
    · rw [Opened.timedOut, if_neg htimes]
      exact h.keep h.accounted hsame rfl
  | disconnect during =>
    cases ha
    have hacc' : Accounted (askedIn as) fate (o.on fun s => { s with leaving := true }) := hacc.on rfl
    have hk := Kept.onStates { o.session with leaving := true } during
    exact close ⟨fate, hacc'.backendDisconnect during⟩ h ⟨hk.closed, hk.screen, hk.pending⟩ rfl
  | close =>
    cases ha
    exact close h.accounted h hsame rfl
  | _ =>
    cases ha
    refine h.keep ⟨fate, hacc.on rfl⟩ ⟨rfl, ?_, List.Subset.refl _⟩ rfl
    simp [Session.onDesktopSize, Session.onCursor, Session.onPointerMode, Session.setOnScreen]

end Handled

/-- After any run each prompt is in the queue once, or on a screen, or was answered, withdrawn or cancelled, and the calls about
it are those and no others: no answer twice, none after a withdrawal, no dialog left open. Prompts are shown in the order they
came, none waits while there is a screen, and in a closed session only those that came after. -/
theorem prompts_accounted (hr : run Opened.step (Opened.opened key n now) as = some o) :
    (∃ fate : P → Fate V, Accounted (askedIn as) fate o) ∧ (o.session.screen ≠ none → o.session.pending = []) ∧
      (o.session.closed = true → ∀ p ∈ o.session.pending, ∃ pre post u, as = pre ++ .ask p :: post ∧
        run Opened.step (Opened.opened key n now) pre = some u ∧ u.session.closed = true) := by
  have h : run Opened.step (Opened.opened key n now) as = some o ∧ Handled key n now as o := by
    refine trace_inv_all (fun as o => run Opened.step (Opened.opened key n now) as = some o ∧ Handled key n now as o) ?_ ?_ hr
    · refine ⟨rfl, ⟨fun _ => .new, fun _ => rfl, fun _ => rfl, ?_, ?_, List.nodup_nil, List.Sublist.refl _⟩, ?_, ?_⟩
      · intro p
        simp [askedIn]
      · intro p
        simp [Opened.opened]
      · intro _
        rfl
      · intro hc
        cases hc
    · rintro tr u a u' ⟨hu, hI⟩ ha
      exact ⟨run_snoc hu ha, hI.step hu ha⟩
  exact ⟨h.2.accounted, h.2.idle, h.2.late⟩

/-- One prompt waits for a screen and is answered there, one is withdrawn before a screen comes. -/
theorem prompts_accounted_pocket : ∃ o : Opened Nat Nat Nat,
    run Opened.step (Opened.opened (lit "addr:a") 1 0)
      [.ask 1, .ask 2, .withdraw 1, .attach 7 .connecting false, .answer 2 true, .close] = some o ∧
      (∃ fate : Nat → Fate Nat, Accounted [1, 2] fate o) ∧ o.session.pending = [] := by
  have hr : ∃ o : Opened Nat Nat Nat, run Opened.step (Opened.opened (lit "addr:a") 1 0)
      [.ask 1, .ask 2, .withdraw 1, .attach 7 .connecting false, .answer 2 true, .close] = some o ∧
        o.session.screen ≠ none := ⟨_, rfl, Option.some_ne_none _⟩
  obtain ⟨o, hr, hs⟩ := hr
  obtain ⟨hacc, hidle, -⟩ := prompts_accounted hr
  exact ⟨o, hr, hacc, hidle hs⟩

end Step

end Accounted

end Vento.App
