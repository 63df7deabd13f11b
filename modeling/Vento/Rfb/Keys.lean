import Mathlib.Data.List.Induction
import Vento.Lib.Held
import Vento.Lib.Runs
/-!
# Held keys

`key_down`, `key_up`, `release_all_keys` and `set_view_only` of the RFB client
(`rfb/src/client.rs`), in a running session. The client keeps a map from key id
to keysym; the server sees only keysyms. What follows compares the two: which
keysyms the server has been sent a press of and no later release, and which
keysyms the map still holds.
-/

namespace Vento.Rfb

open Vento.Lib

/-- A `KeyEvent` message. -/
structure KeyEvent where
  keysym : UInt32
  down : Bool
deriving DecidableEq, Repr

/-- The client's part of the key state, and the events queued for the server so
far. -/
structure Keys where
  held : AList fun _ : Int64 => UInt32
  viewOnly : Bool
  sent : List KeyEvent

/-- A call. `drain` visits a hash map in no particular order, so a
`releaseAllKeys` comes with the order it happened to take. -/
inductive KeyCall where
  | keyDown (keysym : UInt32) (keyId : Int64)
  | keyUp (keyId : Int64)
  | releaseAllKeys (order : List UInt32)
  | setViewOnly (viewOnly : Bool)
deriving DecidableEq, Repr

namespace Keys

def start : Keys := ⟨∅, false, []⟩

def keyDown (s : Keys) (keysym : UInt32) (keyId : Int64) : Keys :=
  if s.viewOnly then s
  else { s with held := s.held.insert keyId keysym, sent := s.sent ++ [⟨keysym, true⟩] }

def keyUp (s : Keys) (keyId : Int64) : Keys :=
  if s.viewOnly then s
  else
    match s.held.lookup keyId with
    | some keysym => { s with held := s.held.erase keyId, sent := s.sent ++ [⟨keysym, false⟩] }
    | none => s

/-- The keysyms in the map, one for each id. -/
def keysyms (s : Keys) : List UInt32 := s.held.entries.map (·.2)

/-- Not gated by view-only, unlike the two above. -/
def releaseAllKeys (s : Keys) (order : List UInt32) : Keys :=
  { s with held := ∅, sent := s.sent ++ order.map (⟨·, false⟩) }

def setViewOnly (s : Keys) (viewOnly : Bool) : Keys := { s with viewOnly }

def step (s : Keys) : KeyCall → Option Keys
  | .keyDown keysym keyId => some (s.keyDown keysym keyId)
  | .keyUp keyId => some (s.keyUp keyId)
  | .releaseAllKeys order => if order.Perm s.keysyms then some (s.releaseAllKeys order) else none
  | .setViewOnly viewOnly => some (s.setViewOnly viewOnly)

def after (tr : List KeyCall) : Option Keys := run step start tr

end Keys

/-! ## What the server holds -/

/-- The server was sent a press of `k` and no later release. -/
def Unreleased (sent : List KeyEvent) (k : UInt32) : Prop :=
  ∃ pre post, sent = pre ++ ⟨k, true⟩ :: post ∧ ⟨k, false⟩ ∉ post

/-- Every release names a keysym the server then holds. -/
def ReleasesHeld (sent : List KeyEvent) : Prop :=
  ∀ pre k post, sent = pre ++ ⟨k, false⟩ :: post → Unreleased pre k

theorem unreleased_snoc (sent : List KeyEvent) (e : KeyEvent) (x : UInt32) :
    Unreleased (sent ++ [e]) x ↔ (e = ⟨x, true⟩) ∨ (e ≠ ⟨x, false⟩ ∧ Unreleased sent x) := by
  constructor
  · rintro ⟨pre, post, heq, hpost⟩
    rcases snoc_eq_append_cons.1 heq with ⟨-, rfl, -⟩ | ⟨post', rfl, rfl⟩
    · exact .inl rfl
    · simp only [List.mem_append, List.mem_singleton, not_or] at hpost
      exact .inr ⟨fun he => hpost.2 he.symm, pre, post', rfl, hpost.1⟩
  · rintro (rfl | ⟨he, pre, post, rfl, hpost⟩)
    · exact ⟨sent, [], rfl, by simp⟩
    · refine ⟨pre, post ++ [e], by simp, ?_⟩
      simp only [List.mem_append, List.mem_singleton, not_or]
      exact ⟨hpost, fun h => he h.symm⟩

theorem unreleased_press (sent : List KeyEvent) (k x : UInt32) :
    Unreleased (sent ++ [⟨k, true⟩]) x ↔ x = k ∨ Unreleased sent x := by
  simp [unreleased_snoc, eq_comm]

theorem unreleased_releases (sent : List KeyEvent) (order : List UInt32) (x : UInt32) :
    Unreleased (sent ++ order.map (⟨·, false⟩)) x ↔ x ∉ order ∧ Unreleased sent x := by
  induction order using List.reverseRecOn with
  | nil => simp
  | append_singleton order k ih =>
    rw [List.map_append, ← List.append_assoc, List.map_singleton, unreleased_snoc, ih]
    simp only [KeyEvent.mk.injEq, Bool.false_eq_true, and_false, false_or, and_true, List.mem_append,
      List.mem_singleton, not_or, ne_eq]
    rw [and_assoc, and_left_comm, eq_comm]

theorem releasesHeld_snoc (sent : List KeyEvent) (e : KeyEvent) :
    ReleasesHeld (sent ++ [e]) ↔ ReleasesHeld sent ∧ (e.down = false → Unreleased sent e.keysym) := by
  constructor
  · intro h
    refine ⟨fun pre k post heq => h pre k (post ++ [e]) (by simp [heq]), fun hd => ?_⟩
    refine h sent e.keysym [] ?_
    rw [← hd]
  · rintro ⟨h, he⟩ pre k post heq
    rcases snoc_eq_append_cons.1 heq with ⟨rfl, rfl, -⟩ | ⟨post', rfl, -⟩
    · exact he rfl
    · exact h pre k post' rfl

theorem releasesHeld_releases (sent : List KeyEvent) (order : List UInt32) :
    ReleasesHeld (sent ++ order.map (⟨·, false⟩)) ↔
      ReleasesHeld sent ∧ order.Nodup ∧ ∀ k ∈ order, Unreleased sent k := by
  induction order using List.reverseRecOn with
  | nil => simp
  | append_singleton order k ih =>
    rw [List.map_append, ← List.append_assoc, List.map_singleton, releasesHeld_snoc, ih]
    simp only [unreleased_releases, forall_const, List.nodup_append, List.nodup_singleton, List.mem_singleton,
      List.mem_append]
    constructor
    · rintro ⟨⟨h, hn, hall⟩, hk, hu⟩
      refine ⟨h, ⟨hn, trivial, ?_⟩, ?_⟩
      · rintro a ha b rfl rfl
        exact hk ha
      · rintro x (hx | rfl)
        · exact hall x hx
        · exact hu
    · rintro ⟨h, ⟨hn, -, hne⟩, hall⟩
      exact ⟨⟨h, hn, fun x hx => hall x (.inl hx)⟩, fun hk => hne k hk k rfl rfl, hall k (.inr rfl)⟩

/-! ## One call -/

namespace Keys

/-- The server holds what the map holds, and was never sent a release of
anything else. -/
structure Matches (s : Keys) : Prop where
  same : ∀ k, Unreleased s.sent k ↔ ∃ id, s.held.lookup id = some k
  releases : ReleasesHeld s.sent

/-- The condition under which a call keeps the two alike: a held id is pressed
again only with its own keysym (or one that another id holds too), a released
id is the only one with its keysym, and no two ids share a keysym when all are
released. -/
def Tidy (s : Keys) : KeyCall → Prop
  | .keyDown keysym keyId => s.viewOnly = false → ∀ k ∈ s.held.lookup keyId, k ≠ keysym →
      ∃ e ∈ s.held.entries, e.1 ≠ keyId ∧ e.2 = k
  | .keyUp keyId => s.viewOnly = false → ∀ k ∈ s.held.lookup keyId, ∀ e ∈ s.held.entries, e.1 ≠ keyId → e.2 ≠ k
  | .releaseAllKeys _ => s.keysyms.Nodup
  | .setViewOnly _ => True

instance (s : Keys) : DecidablePred s.Tidy
  | .keyDown keysym keyId =>
    have : Decidable (∀ k ∈ s.held.lookup keyId, k ≠ keysym → ∃ e ∈ s.held.entries, e.1 ≠ keyId ∧ e.2 = k) :=
      Option.decidableForallMem _
    inferInstanceAs (Decidable (s.viewOnly = false → _))
  | .keyUp keyId =>
    have (k : UInt32) : Decidable (∀ e ∈ s.held.entries, e.1 ≠ keyId → e.2 ≠ k) := List.decidableBAll _ _
    have : Decidable (∀ k ∈ s.held.lookup keyId, ∀ e ∈ s.held.entries, e.1 ≠ keyId → e.2 ≠ k) :=
      Option.decidableForallMem _
    inferInstanceAs (Decidable (s.viewOnly = false → _))
  | .releaseAllKeys _ => inferInstanceAs (Decidable s.keysyms.Nodup)
  | .setViewOnly _ => inferInstanceAs (Decidable True)

theorem mem_keysyms {s : Keys} {k : UInt32} : k ∈ s.keysyms ↔ ∃ id, s.held.lookup id = some k := mem_values

theorem keyDown_matches_iff {s : Keys} (hs : s.Matches) (keysym : UInt32) (keyId : Int64) :
    (s.keyDown keysym keyId).Matches ↔ s.Tidy (.keyDown keysym keyId) := by
  cases hv : s.viewOnly with
  | true => simp [keyDown, Tidy, hv, hs]
  | false =>
    -- the press is new to both; what the id held before is lost from the map alone
    have hsame : ∀ x,
        (Unreleased (s.sent ++ [⟨keysym, true⟩]) x ↔ ∃ id, (s.held.insert keyId keysym).lookup id = some x) ↔
        (x = keysym ∨ (Unreleased s.sent x → ∃ id, id ≠ keyId ∧ s.held.lookup id = some x)) := by
      intro x
      rw [unreleased_press, exists_lookup_insert, hs.same x]
      constructor
      · rintro h
        by_cases hx : x = keysym
        · exact .inl hx
        · exact .inr (fun hu => (h.1 (.inr hu)).resolve_left hx)
      · rintro (rfl | h)
        · simp
        · exact ⟨fun h' => h'.imp id h, fun h' => h'.imp id (fun ⟨id, _, hid⟩ => ⟨id, hid⟩)⟩
    simp only [keyDown, hv, Bool.false_eq_true, if_false, Tidy, forall_const, exists_other_iff]
    constructor
    · intro h k hk hne
      exact ((hsame k).1 (h.same k)).resolve_left hne ((hs.same k).2 ⟨keyId, hk⟩)
    · intro h
      refine ⟨fun x => (hsame x).2 ?_, (releasesHeld_snoc _ _).2 ⟨hs.releases, by simp⟩⟩
      by_cases hx : x = keysym
      · exact .inl hx
      · refine .inr (fun hu => ?_)
        obtain ⟨id, hid⟩ := (hs.same x).1 hu
        by_cases hidk : id = keyId
        · exact h x (hidk ▸ hid) hx
        · exact ⟨id, hidk, hid⟩

theorem keyUp_matches_iff {s : Keys} (hs : s.Matches) (keyId : Int64) :
    (s.keyUp keyId).Matches ↔ s.Tidy (.keyUp keyId) := by
  cases hv : s.viewOnly with
  | true => simp [keyUp, Tidy, hv, hs]
  | false =>
    cases hl : s.held.lookup keyId with
    | none => simp [keyUp, Tidy, hv, hl, hs]
    | some k =>
      have hk : Unreleased s.sent k := (hs.same k).2 ⟨keyId, hl⟩
      simp only [keyUp, hv, hl, Bool.false_eq_true, if_false, Tidy, forall_const, Option.mem_some_iff, forall_eq']
      constructor
      · -- another id holds the keysym too, and the server was told to release it
        rintro h e he hid rfl
        have := (h.same e.2).2 ((exists_lookup_erase _ _ _).2 (exists_other_iff.1 ⟨e, he, hid, rfl⟩))
        simp [unreleased_snoc] at this
      · intro h
        refine ⟨fun x => ?_, (releasesHeld_snoc _ _).2 ⟨hs.releases, fun _ => hk⟩⟩
        rw [unreleased_snoc, exists_lookup_erase, hs.same x]
        simp only [KeyEvent.mk.injEq, Bool.false_eq_true, and_false, and_true, false_or, ne_eq]
        constructor
        · rintro ⟨hne, id, hid⟩
          refine ⟨id, fun h => ?_, hid⟩
          subst h
          rw [hl] at hid
          exact hne (Option.some.inj hid)
        · rintro ⟨id, hne, hid⟩
          exact ⟨fun hkx => h ⟨id, x⟩ (AList.mem_lookup_iff.1 hid) hne hkx.symm, id, hid⟩

theorem releaseAllKeys_matches_iff {s : Keys} (hs : s.Matches) {order : List UInt32} (ho : order.Perm s.keysyms) :
    (s.releaseAllKeys order).Matches ↔ s.Tidy (.releaseAllKeys order) := by
  have hmem : ∀ k, k ∈ order ↔ Unreleased s.sent k := by
    intro k
    rw [ho.mem_iff, mem_keysyms, hs.same k]
  simp only [releaseAllKeys, Tidy, ← ho.nodup_iff]
  constructor
  · intro h
    exact ((releasesHeld_releases _ _).1 h.releases).2.1
  · intro h
    refine ⟨fun x => ?_, (releasesHeld_releases _ _).2 ⟨hs.releases, h, fun k hk => (hmem k).1 hk⟩⟩
    rw [unreleased_releases, hmem x]
    simp

/-- From a state in which the two are alike, a call keeps them alike exactly if
it meets the condition. -/
theorem step_matches_iff {s s' : Keys} {c : KeyCall} (hs : s.Matches) (h : step s c = some s') :
    s'.Matches ↔ s.Tidy c := by
  cases c with
  | keyDown keysym keyId => cases h; exact keyDown_matches_iff hs keysym keyId
  | keyUp keyId => cases h; exact keyUp_matches_iff hs keyId
  | releaseAllKeys order =>
    simp only [step] at h
    split at h
    · cases h; exact releaseAllKeys_matches_iff hs ‹_›
    · cases h
  | setViewOnly viewOnly => cases h; exact ⟨fun _ => trivial, fun _ => ⟨hs.same, hs.releases⟩⟩

/-! ## Whole runs -/

/-- Every press of `id` in the run was followed by a release of it made while
view-only was off. -/
def LetGo (tr : List KeyCall) (id : Int64) : Prop :=
  ∀ pre k post, tr = pre ++ .keyDown k id :: post →
    ∃ mid rest s, post = mid ++ .keyUp id :: rest ∧ after (pre ++ .keyDown k id :: mid) = some s ∧ s.viewOnly = false

/-- In every state of the run the server holds what the map holds, every
release names a held keysym, and the server holds nothing once all keys are
released or every pressed id has been let go of. -/
structure NoStuckKeys (tr : List KeyCall) : Prop where
  alike : ∀ pre rest s, tr = pre ++ rest → after pre = some s → s.Matches
  released : ∀ pre order rest s, tr = pre ++ .releaseAllKeys order :: rest →
    after (pre ++ [.releaseAllKeys order]) = some s → ∀ k, ¬ Unreleased s.sent k
  letGo : ∀ pre rest s, tr = pre ++ rest → after pre = some s → (∀ id, LetGo pre id) → ∀ k, ¬ Unreleased s.sent k

/-- Id `id` went down as `k`, and every release of it since was made in
view-only mode. -/
def DownSince (tr : List KeyCall) (id : Int64) (k : UInt32) : Prop :=
  ∃ pre post, tr = pre ++ .keyDown k id :: post ∧
    ∀ mid rest s, post = mid ++ .keyUp id :: rest → after (pre ++ .keyDown k id :: mid) = some s → s.viewOnly = true

theorem DownSince.snoc {tr : List KeyCall} {id : Int64} {k : UInt32} {s : Keys} {c : KeyCall} (h : DownSince tr id k)
    (hs : after tr = some s) (hc : c = .keyUp id → s.viewOnly = true) : DownSince (tr ++ [c]) id k := by
  obtain ⟨pre, post, rfl, hup⟩ := h
  refine ⟨pre, post ++ [c], by simp, fun mid rest u heq hu => ?_⟩
  rcases snoc_eq_append_cons.1 heq with ⟨rfl, rfl, -⟩ | ⟨rest', rfl, -⟩
  · cases hu.symm.trans hs
    exact hc rfl
  · exact hup mid rest' u rfl hu

theorem keyUp_lookup {s : Keys} {keyId id : Int64} {k : UInt32} (h : (s.keyUp keyId).held.lookup id = some k) :
    s.held.lookup id = some k ∧ (keyId = id → s.viewOnly = true) := by
  cases hv : s.viewOnly with
  | true => simpa [keyUp, hv] using h
  | false =>
    cases hl : s.held.lookup keyId with
    | none =>
      simp only [keyUp, hv, hl, Bool.false_eq_true, if_false] at h
      refine ⟨h, fun he => ?_⟩
      rw [← he, hl] at h
      cases h
    | some k' =>
      simp only [keyUp, hv, hl, Bool.false_eq_true, if_false] at h
      by_cases hid : id = keyId
      · subst hid
        rw [AList.lookup_erase] at h
        cases h
      · rw [AList.lookup_erase_ne hid] at h
        exact ⟨h, fun he => absurd he.symm hid⟩

/-- What the map holds went down under that id and has not been let go of. -/
theorem held_downSince {tr : List KeyCall} {s : Keys} (hr : after tr = some s) :
    ∀ id k, s.held.lookup id = some k → DownSince tr id k := by
  refine (trace_inv_all (fun tr s => after tr = some s ∧ ∀ id k, s.held.lookup id = some k → DownSince tr id k)
    ⟨rfl, by simp [start]⟩ ?_ hr).2
  rintro tr s c s' ⟨hs, hi⟩ hstep
  refine ⟨run_snoc hs hstep, fun id k hk => ?_⟩
  cases c with
  | keyDown keysym keyId =>
    cases hstep
    cases hv : s.viewOnly with
    | true =>
      simp only [keyDown, hv, if_true] at hk
      exact (hi id k hk).snoc hs (by simp)
    | false =>
      simp only [keyDown, hv, Bool.false_eq_true, if_false] at hk
      by_cases hid : id = keyId
      · subst hid
        rw [AList.lookup_insert] at hk
        cases hk
        exact ⟨tr, [], rfl, by simp⟩
      · rw [AList.lookup_insert_ne hid] at hk
        exact (hi id k hk).snoc hs (by simp)
  | keyUp keyId =>
    cases hstep
    obtain ⟨hk, hv⟩ := keyUp_lookup hk
    exact (hi id k hk).snoc hs (fun h => hv (by simpa using h))
  | releaseAllKeys order =>
    simp only [step] at hstep
    split at hstep
    · cases hstep; simp [releaseAllKeys] at hk
    · cases hstep
  | setViewOnly viewOnly =>
    cases hstep
    exact (hi id k hk).snoc hs (by simp)

theorem start_matches : start.Matches :=
  ⟨fun k => by simp [start, Unreleased], fun pre k post h => by simp [start] at h⟩

theorem matches_run {tr : List KeyCall} {s : Keys} (hm : Meets step Tidy start tr) (hr : after tr = some s) :
    s.Matches :=
  trace_inv (fun _ s => s.Matches) start_matches (fun _ _ _ _ hi hok hs => (step_matches_iff hi hs).2 hok) hm hr

/-- A run leaves no key stuck, at any point of it, exactly if each of its calls
meets the condition. -/
theorem no_stuck_keys (tr : List KeyCall) (s : Keys) (hr : after tr = some s) :
    NoStuckKeys tr ↔ Meets step Tidy start tr := by
  refine ⟨fun h => Meets.of_states (fun _ _ _ hi hs hi' => (step_matches_iff hi hs).1 hi') hr h.alike, fun hm => ?_⟩
  have alike : ∀ pre rest s, tr = pre ++ rest → after pre = some s → s.Matches := by
    rintro pre rest s rfl hs
    exact matches_run hm.append_left hs
  refine ⟨alike, ?_, ?_⟩
  · intro pre order rest s heq hs k hk
    have hsame := (alike (pre ++ [.releaseAllKeys order]) rest s (by simp [heq]) hs).same k
    obtain ⟨u, -, hlast⟩ := run_append_some hs
    obtain ⟨v, hstep, hv⟩ := run_cons_some hlast
    cases hv
    simp only [step] at hstep
    split at hstep
    · cases hstep
      obtain ⟨id, hid⟩ := hsame.1 hk
      simp [releaseAllKeys] at hid
    · cases hstep
  · intro pre rest s heq hs hgo k hk
    obtain ⟨id, hid⟩ := ((alike pre rest s heq hs).same k).1 hk
    obtain ⟨a, b, heq', hview⟩ := held_downSince hs id k hid
    obtain ⟨mid, tl, u, hpost, hu, hoff⟩ := hgo id a k b heq'
    rw [hview mid tl u hpost hu] at hoff
    cases hoff

/-- Two keys held at once, one of them repeating, with view-only on for a while. -/
theorem no_stuck_keys_chord :
    NoStuckKeys [.keyDown 0xffe1 1, .keyDown 0x41 2, .keyDown 0x41 2, .setViewOnly true, .keyUp 2, .setViewOnly false,
      .keyUp 2, .keyUp 1] :=
  (no_stuck_keys _ _ rfl).2 (by decide)

/-- A held key repeats under another keysym: its release lets go of the second
and the first stays down. -/
theorem repeat_sticks : ¬ NoStuckKeys [.keyDown 0x61 1, .keyDown 0x41 1, .keyUp 1] := by
  intro h
  have hs := h.alike [.keyDown 0x61 1, .keyDown 0x41 1, .keyUp 1] [] _ rfl rfl
  have hstuck : Unreleased [⟨0x61, true⟩, ⟨0x41, true⟩, ⟨0x41, false⟩] 0x61 :=
    ⟨[], [⟨0x41, true⟩, ⟨0x41, false⟩], rfl, by decide⟩
  have := mem_keysyms.2 ((hs.same 0x61).1 hstuck)
  exact absurd this (by decide)

end Keys

end Vento.Rfb
