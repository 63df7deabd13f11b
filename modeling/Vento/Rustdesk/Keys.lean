import Vento.Lib.Held
import Vento.Lib.Runs
import Vento.Rustdesk.Keymap
/-!
# The keys held at a RustDesk peer

`rustdesk/src/client.rs`: the calls that press and release keys. The peer lets go of every modifier
that a press does not name, so each press carries those held, and `modifiers` is the list it is
taken from.

`Hands` is what the calls say is down: the keys sent down under an id since it was last let go. The
client keeps to it (`keys_iff`) exactly if no id is let go that was pressed as two keys, a left
modifier comes up only as the last of its kind, and a right one never as the last.
-/

namespace Vento.Rustdesk.Keymap

open Vento.Lib

/-- `KeyEvent`; its mode is always the legacy one. -/
structure KeyEvent where
  down : Bool
  key : Key
  modifiers : List ControlKey
deriving DecidableEq, Repr

/-- The keys held, by the caller's id, the modifiers in the order they went down, and what was sent. -/
structure Keys where
  keys : AList fun _ : Int64 => Key
  modifiers : List ControlKey
  viewOnly : Bool
  sent : List KeyEvent

/-- The map's values come in no particular order, so what releases them comes with the one it took. -/
inductive KeyOp where
  | keyDown (keysym : UInt32) (id : Int64)
  | keyUp (id : Int64)
  | releaseAllKeys (order : List Key)
  | setViewOnly (viewOnly : Bool) (order : List Key)
deriving DecidableEq, Repr

namespace Keys

def start : Keys := ⟨∅, [], false, []⟩

/-- The modifiers held, less the one being pressed. -/
def heldModifiers (s : Keys) (itself : Option ControlKey) : List ControlKey :=
  s.modifiers.filter fun held => some held ≠ itself.bind modifierOf

def key (s : Keys) (key : Key) (down : Bool) : Keys :=
  let modifiers :=
    match key with
    | .control c => if down then s.heldModifiers (some c) else []
    | .char _ => if down then s.heldModifiers none else []
  { s with sent := s.sent ++ [⟨down, key, modifiers⟩] }

def keyDown (s : Keys) (keysym : UInt32) (id : Int64) : Keys :=
  if s.viewOnly then s
  else
    match Keymap.key keysym with
    | none => s
    | some key =>
      let modifiers :=
        match modifier keysym with
        | none => s.modifiers
        | some m => if m ∈ s.modifiers then s.modifiers else s.modifiers ++ [m]
      ({ s with modifiers, keys := s.keys.insert id key } : Keys).key key true

def keyUp (s : Keys) (id : Int64) : Keys :=
  match s.keys.lookup id with
  | none => s
  | some key =>
    let modifiers :=
      match key with
      | .control c => s.modifiers.filter (· ≠ c)
      | .char _ => s.modifiers
    ({ s with keys := s.keys.erase id, modifiers } : Keys).key key false

def releaseAllKeys (s : Keys) (order : List Key) : Keys :=
  order.foldl (fun s k => s.key k false) { s with keys := ∅, modifiers := [] }

def step (s : Keys) : KeyOp → Option Keys
  | .keyDown keysym id => some (s.keyDown keysym id)
  | .keyUp id => some (s.keyUp id)
  | .releaseAllKeys order => if order.Perm (values s.keys) then some (s.releaseAllKeys order) else none
  | .setViewOnly viewOnly order =>
    if viewOnly then
      if order.Perm (values s.keys) then some (({ s with viewOnly } : Keys).releaseAllKeys order) else none
    else some { s with viewOnly }

end Keys

def typed (ops : List KeyOp) : Option Keys := run Keys.step Keys.start ops

/-! ## What the calls say -/

/-- The keys sent down under an id since it was last let go. -/
structure Hands where
  viewOnly : Bool
  down : List (Int64 × Key)

namespace Hands

def after (h : Hands) : KeyOp → Hands
  | .keyDown keysym id =>
    if h.viewOnly then h
    else
      match Keymap.key keysym with
      | none => h
      | some key => { h with down := h.down.insert (id, key) }
  | .keyUp id => { h with down := h.down.filter (·.1 ≠ id) }
  | .releaseAllKeys _ => { h with down := [] }
  | .setViewOnly viewOnly _ => ⟨viewOnly, if viewOnly then [] else h.down⟩

/-- A key of this modifier, of either hand, is down. -/
def Held (h : Hands) (m : ControlKey) : Prop := ∃ p ∈ h.down, p.2.modifier = some m

/-- So is one under another id. -/
def HeldBeside (h : Hands) (id : Int64) (m : ControlKey) : Prop :=
  ∃ p ∈ h.down, p.1 ≠ id ∧ p.2.modifier = some m

/-- The keys, each let go once. -/
def LetsGo (keys : List Key) (out : List KeyEvent) : Prop :=
  ∃ order : List Key, order.Perm keys ∧ out = order.map fun k => ⟨false, k, []⟩

/-- What a call is to send: a press, with exactly the modifiers of the keys that are down, less its
own; and a release for every key that was sent down under what is let go. -/
def Due (h : Hands) : KeyOp → List KeyEvent → Prop
  | .keyDown keysym _, out =>
    if h.viewOnly then out = []
    else
      match Keymap.key keysym with
      | none => out = []
      | some key => ∃ modifiers : List ControlKey, out = [⟨true, key, modifiers⟩] ∧ modifiers.Nodup ∧
          ∀ m, m ∈ modifiers ↔ h.Held m ∧ key.modifier ≠ some m
  | .keyUp id, out => LetsGo ((h.down.filter (·.1 = id)).map (·.2)) out
  | .releaseAllKeys _, out => LetsGo (h.down.map (·.2)) out
  | .setViewOnly viewOnly _, out => if viewOnly then LetsGo (h.down.map (·.2)) out else out = []

/-- Each id is down as one key. -/
def Single (h : Hands) : Prop := ∀ id k k', (id, k) ∈ h.down → (id, k') ∈ h.down → k' = k

/-- What the client can follow: an id comes up that is down as one key, and if that is a modifier it is
the left one and the last of its kind, or the right one and not the last. -/
def Tidy (h : Hands) : KeyOp → Prop
  | .keyDown _ _ => True
  | .keyUp id => ∀ k, (id, k) ∈ h.down → (∀ k', (id, k') ∈ h.down → k' = k) ∧
      ∀ m, k.modifier = some m → (k = .control m ↔ ¬h.HeldBeside id m)
  | .releaseAllKeys _ => h.Single
  | .setViewOnly viewOnly _ => viewOnly = true → h.Single

end Hands

def hands (ops : List KeyOp) : Hands := ops.foldl Hands.after ⟨false, []⟩

def releasesAll : KeyOp → Bool
  | .releaseAllKeys _ => true
  | .setViewOnly viewOnly _ => viewOnly
  | _ => false

/-- What a call does is what is due; a modifier is in the list exactly while a key of it is down; and
after a release of all nothing is left. -/
structure Follows (h : Hands) (op : KeyOp) (s s' : Keys) : Prop where
  due : ∃ out, s'.sent = s.sent ++ out ∧ h.Due op out
  modifiers : ∀ m, m ∈ s'.modifiers ↔ (h.after op).Held m
  empty : releasesAll op = true → s'.keys = ∅ ∧ s'.modifiers = []

/-! ## One call -/

/-- The client's map has the ids that are down, each under the last key of it; its list the modifiers. -/
structure Tracks (s : Keys) (h : Hands) : Prop where
  viewOnly : s.viewOnly = h.viewOnly
  lookup : ∀ id k, s.keys.lookup id = some k → (id, k) ∈ h.down
  ids : ∀ id k, (id, k) ∈ h.down → s.keys.lookup id ≠ none
  modifiers : ∀ m, m ∈ s.modifiers ↔ h.Held m
  once : s.modifiers.Nodup
  nodup : h.down.Nodup

variable {s s' : Keys} {h : Hands} {id : Int64} {k : Key} {m : ControlKey}

theorem Hands.Held.modifierOf_self (hm : h.Held m) : modifierOf m = some m := by
  obtain ⟨⟨id, k⟩, -, hk⟩ := hm
  cases k with
  | control c => exact modifierOf_modifierOf hk
  | char c => cases hk

theorem Hands.HeldBeside.held (hm : h.HeldBeside id m) : h.Held m := by
  obtain ⟨p, hp, -, hk⟩ := hm
  exact ⟨p, hp, hk⟩

/-- With one key down under `id`, a modifier is that key's or another's. -/
theorem Hands.held_iff (hk : (id, k) ∈ h.down) (hone : ∀ k', (id, k') ∈ h.down → k' = k) :
    h.Held m ↔ k.modifier = some m ∨ h.HeldBeside id m := by
  constructor
  · rintro ⟨⟨i, k'⟩, hp, hm⟩
    by_cases hi : i = id
    · subst hi
      cases hone k' hp
      exact Or.inl hm
    · exact Or.inr ⟨(i, k'), hp, hi, hm⟩
  · rintro (hm | hm)
    · exact ⟨(id, k), hk, hm⟩
    · exact hm.held

theorem Hands.held_filter : ({ h with down := h.down.filter (·.1 ≠ id) } : Hands).Held m ↔ h.HeldBeside id m := by
  simp [Held, HeldBeside, and_assoc]

theorem letsGo_iff {keys order : List Key} :
    Hands.LetsGo keys (order.map fun k => ⟨false, k, []⟩) ↔ order.Perm keys := by
  constructor
  · rintro ⟨order', hp, heq⟩
    have hinj : Function.Injective fun k : Key => (⟨false, k, []⟩ : KeyEvent) := by
      intro a b hab
      cases hab
      rfl
    rw [List.map_injective_iff.mpr hinj heq]
    exact hp
  · intro hp
    exact ⟨order, hp, rfl⟩

/-- The release of a left or right modifier leaves the others' in the list exactly if it is tidy. -/
theorem modifiers_keyUp_iff (ht : Tracks s h) (hk : (id, k) ∈ h.down) (hone : ∀ k', (id, k') ∈ h.down → k' = k) :
    (∀ m, m ∈ s.modifiers ∧ k ≠ .control m ↔ h.HeldBeside id m) ↔
      ∀ m, k.modifier = some m → (k = .control m ↔ ¬h.HeldBeside id m) := by
  constructor
  · intro hall m hm
    have hmem : m ∈ s.modifiers := (ht.modifiers m).mpr ⟨(id, k), hk, hm⟩
    rw [← hall m]
    simp [hmem]
  · intro htidy m
    rw [ht.modifiers m, Hands.held_iff hk hone]
    constructor
    · rintro ⟨hm | hm, hne⟩
      · by_contra hno
        exact hne ((htidy m hm).mpr hno)
      · exact hm
    · intro hm
      refine ⟨Or.inr hm, ?_⟩
      rintro rfl
      -- a key that is a modifier as it is named is a modifier itself
      have hself : (Key.control m).modifier = some m := hm.held.modifierOf_self
      exact (htidy m hself).mp rfl hm

theorem filter_id_eq (ht : Tracks s h) (hk : (id, k) ∈ h.down) (hone : ∀ k', (id, k') ∈ h.down → k' = k) :
    h.down.filter (·.1 = id) = [(id, k)] := by
  have hnd : (h.down.filter (·.1 = id)).Nodup := ht.nodup.filter _
  have hall : ∀ p ∈ h.down.filter (·.1 = id), p = (id, k) := by
    rintro ⟨i, k'⟩ hp
    simp only [List.mem_filter, decide_eq_true_eq] at hp
    obtain ⟨hp, rfl⟩ := hp
    rw [hone k' hp]
  have hmem : (id, k) ∈ h.down.filter (·.1 = id) := by simp [hk]
  cases hl : h.down.filter (·.1 = id) with
  | nil =>
    rw [hl] at hmem
    cases hmem
  | cons p l =>
    rw [hl] at hall hnd
    cases l with
    | nil => rw [hall p (by simp)]
    | cons q l =>
      have hpq : p = q := (hall p (by simp)).trans (hall q (by simp)).symm
      simp [hpq] at hnd

/-- One release is what is due exactly if one key was down. -/
theorem perm_filter_iff (ht : Tracks s h) (hk : (id, k) ∈ h.down) :
    [k].Perm ((h.down.filter (·.1 = id)).map (·.2)) ↔ ∀ k', (id, k') ∈ h.down → k' = k := by
  constructor
  · intro hp k' hk'
    have hmem : k' ∈ (h.down.filter (·.1 = id)).map (·.2) := List.mem_map.mpr ⟨(id, k'), by simp [hk'], rfl⟩
    exact List.mem_singleton.mp (hp.mem_iff.mpr hmem)
  · intro hone
    rw [filter_id_eq ht hk hone]
    exact List.Perm.refl _

/-- A release of a held id: what it leaves. -/
theorem keyUp_eq (hl : s.keys.lookup id = some k) :
    (s.keyUp id).keys = s.keys.erase id ∧ (s.keyUp id).viewOnly = s.viewOnly ∧
      (s.keyUp id).sent = s.sent ++ [⟨false, k, []⟩] ∧
      (∀ m, m ∈ (s.keyUp id).modifiers ↔ m ∈ s.modifiers ∧ k ≠ .control m) ∧
      (s.keyUp id).modifiers.Sublist s.modifiers := by
  unfold Keys.keyUp
  rw [hl]
  cases k with
  | control c =>
    refine ⟨rfl, rfl, rfl, ?_, List.filter_sublist⟩
    intro m
    show m ∈ s.modifiers.filter (· ≠ c) ↔ _
    simp only [List.mem_filter, decide_eq_true_eq, ne_eq, Key.control.injEq]
    exact and_congr_right fun _ => not_congr eq_comm
  | char c =>
    refine ⟨rfl, rfl, rfl, ?_, List.Sublist.refl _⟩
    intro m
    show m ∈ s.modifiers ↔ _
    simp

theorem keyUp_of_none (hl : s.keys.lookup id = none) : s.keyUp id = s := by
  unfold Keys.keyUp
  rw [hl]

theorem not_mem_down (ht : Tracks s h) (hl : s.keys.lookup id = none) : (id, k) ∉ h.down :=
  fun hk => ht.ids id k hk hl

theorem filter_ne_eq (ht : Tracks s h) (hl : s.keys.lookup id = none) : h.down.filter (·.1 ≠ id) = h.down := by
  rw [List.filter_eq_self]
  rintro ⟨i, k⟩ hp
  simp only [decide_eq_true_eq]
  rintro rfl
  exact not_mem_down ht hl hp

theorem Tracks.keyUp_iff (ht : Tracks s h) : Follows h (.keyUp id) s (s.keyUp id) ↔ h.Tidy (.keyUp id) := by
  cases hl : s.keys.lookup id with
  | none =>
    have hno : ∀ k, (id, k) ∉ h.down := fun k => not_mem_down ht hl
    refine iff_of_true ⟨⟨[], ?_, [], ?_, rfl⟩, ?_, nofun⟩ (fun k hk => absurd hk (hno k))
    · rw [keyUp_of_none hl, List.append_nil]
    · have hnil : h.down.filter (·.1 = id) = [] := by
        rw [List.filter_eq_nil_iff]
        rintro ⟨i, k⟩ hp hi
        cases of_decide_eq_true hi
        exact hno k hp
      rw [hnil]
      exact List.Perm.refl _
    · intro m
      rw [keyUp_of_none hl, ht.modifiers m]
      show h.Held m ↔ ({ h with down := h.down.filter (·.1 ≠ id) } : Hands).Held m
      rw [filter_ne_eq ht hl]
  | some k =>
    have hk := ht.lookup id k hl
    obtain ⟨-, -, hsent, hmods, -⟩ := keyUp_eq hl
    have hdue : (∃ out, (s.keyUp id).sent = s.sent ++ out ∧ h.Due (.keyUp id) out) ↔
        ∀ k', (id, k') ∈ h.down → k' = k := by
      rw [← perm_filter_iff ht hk, ← letsGo_iff]
      constructor
      · rintro ⟨out, heq, hout⟩
        rw [hsent, List.append_cancel_left_eq] at heq
        rw [List.map_singleton, heq]
        exact hout
      · intro hgo
        exact ⟨_, hsent, hgo⟩
    have hheld : (∀ m, m ∈ (s.keyUp id).modifiers ↔ (h.after (.keyUp id)).Held m) ↔
        ∀ m, m ∈ s.modifiers ∧ k ≠ .control m ↔ h.HeldBeside id m := by
      refine forall_congr' fun m => ?_
      rw [hmods m]
      exact iff_congr Iff.rfl Hands.held_filter
    constructor
    · intro hf k' hk'
      have hone := hdue.mp hf.due
      cases hone k' hk'
      exact ⟨hone, (modifiers_keyUp_iff ht hk hone).mp (hheld.mp hf.modifiers)⟩
    · intro htidy
      obtain ⟨hone, hm⟩ := htidy k hk
      exact ⟨hdue.mpr hone, hheld.mpr ((modifiers_keyUp_iff ht hk hone).mpr hm), nofun⟩

theorem Tracks.keyUp (ht : Tracks s h) (hm : ∀ m, m ∈ (s.keyUp id).modifiers ↔ (h.after (.keyUp id)).Held m) :
    Tracks (s.keyUp id) (h.after (.keyUp id)) := by
  have hnodup : (h.after (.keyUp id)).down.Nodup := ht.nodup.filter _
  have hdown : ∀ i k', (i, k') ∈ (h.after (.keyUp id)).down ↔ (i, k') ∈ h.down ∧ i ≠ id := by
    intro i k'
    show (i, k') ∈ h.down.filter (·.1 ≠ id) ↔ _
    simp
  cases hl : s.keys.lookup id with
  | none =>
    rw [keyUp_of_none hl] at hm ⊢
    refine ⟨ht.viewOnly, ?_, ?_, hm, ht.once, hnodup⟩
    · intro i k' hi
      refine (hdown i k').mpr ⟨ht.lookup i k' hi, ?_⟩
      rintro rfl
      cases hl.symm.trans hi
    · intro i k' hi
      exact ht.ids i k' ((hdown i k').mp hi).1
  | some k =>
    obtain ⟨hkeys, hview, -, -, hsub⟩ := keyUp_eq hl
    refine ⟨hview.trans ht.viewOnly, ?_, ?_, hm, ht.once.sublist hsub, hnodup⟩
    · intro i k' hi
      rw [hkeys] at hi
      by_cases hne : i = id
      · subst hne
        rw [AList.lookup_erase] at hi
        cases hi
      · rw [AList.lookup_erase_ne hne] at hi
        exact (hdown i k').mpr ⟨ht.lookup i k' hi, hne⟩
    · intro i k' hi
      obtain ⟨hi, hne⟩ := (hdown i k').mp hi
      rw [hkeys, AList.lookup_erase_ne hne]
      exact ht.ids i k' hi

/-- A press that is sent: what it leaves, and the modifiers it names. -/
theorem keyDown_eq (s : Keys) (id : Int64) {keysym : UInt32} (hv : s.viewOnly = false) (hk : key keysym = some k) :
    (s.keyDown keysym id).keys = s.keys.insert id k ∧ (s.keyDown keysym id).viewOnly = s.viewOnly ∧
      (∀ m, m ∈ (s.keyDown keysym id).modifiers ↔ k.modifier = some m ∨ m ∈ s.modifiers) ∧
      (s.modifiers.Nodup → (s.keyDown keysym id).modifiers.Nodup) ∧
      (s.keyDown keysym id).sent =
        s.sent ++ [⟨true, k, (s.keyDown keysym id).modifiers.filter fun held => some held ≠ k.modifier⟩] := by
  unfold Keys.keyDown
  rw [hv, if_neg nofun, hk, modifier_eq hk]
  dsimp only
  refine ⟨rfl, rfl, ?_, ?_, ?_⟩
  · intro m
    cases hm : k.modifier with
    | none =>
      show m ∈ s.modifiers ↔ _
      simp
    | some m' =>
      show m ∈ (if m' ∈ s.modifiers then s.modifiers else s.modifiers ++ [m']) ↔ _
      split
      · rename_i hmem
        constructor
        · exact Or.inr
        · rintro (heq | hin)
          · cases heq
            exact hmem
          · exact hin
      · simp [or_comm, eq_comm]
  · intro hn
    cases hm : k.modifier with
    | none => exact hn
    | some m' =>
      show (if m' ∈ s.modifiers then s.modifiers else s.modifiers ++ [m']).Nodup
      split
      · exact hn
      · rename_i hmem
        rw [← List.concat_eq_append]
        exact (List.nodup_concat s.modifiers m').mpr ⟨hmem, hn⟩
  · cases k <;> rfl

theorem keyDown_of_viewOnly {keysym : UInt32} (hv : s.viewOnly = true) : s.keyDown keysym id = s := by
  unfold Keys.keyDown
  rw [if_pos hv]

theorem keyDown_of_none {keysym : UInt32} (hk : key keysym = none) : s.keyDown keysym id = s := by
  unfold Keys.keyDown
  rw [hk]
  split <;> rfl

theorem held_insert : ({ h with down := h.down.insert (id, k) } : Hands).Held m ↔ k.modifier = some m ∨ h.Held m := by
  simp [Hands.Held, List.mem_insert_iff, or_and_right, exists_or]

/-- A press is always followed. -/
theorem Tracks.keyDown {keysym : UInt32} (ht : Tracks s h) :
    Follows h (.keyDown keysym id) s (s.keyDown keysym id) ∧
      Tracks (s.keyDown keysym id) (h.after (.keyDown keysym id)) := by
  cases hv : s.viewOnly with
  | true =>
    have hv' : h.viewOnly = true := ht.viewOnly.symm.trans hv
    have hafter : h.after (.keyDown keysym id) = h := if_pos hv'
    rw [keyDown_of_viewOnly hv]
    refine ⟨⟨⟨[], (List.append_nil _).symm, ?_⟩, ?_, nofun⟩, ?_⟩
    · show if h.viewOnly then _ else _
      rw [if_pos hv']
    · rw [hafter]
      exact ht.modifiers
    · rw [hafter]
      exact ht
  | false =>
    have hv' : h.viewOnly = false := ht.viewOnly.symm.trans hv
    cases hk : key keysym with
    | none =>
      have hafter : h.after (.keyDown keysym id) = h := by
        unfold Hands.after
        simp [hv', hk]
      rw [keyDown_of_none hk]
      refine ⟨⟨⟨[], (List.append_nil _).symm, ?_⟩, ?_, nofun⟩, ?_⟩
      · simp [Hands.Due, hv', hk]
      · rw [hafter]
        exact ht.modifiers
      · rw [hafter]
        exact ht
    | some k =>
      have hafter : h.after (.keyDown keysym id) = { h with down := h.down.insert (id, k) } := by
        unfold Hands.after
        simp [hv', hk]
      obtain ⟨hkeys, hview, hmods, honce, hsent⟩ := keyDown_eq s id hv hk
      have hheld : ∀ m, m ∈ (s.keyDown keysym id).modifiers ↔ (h.after (.keyDown keysym id)).Held m := by
        intro m
        rw [hafter, hmods m, ht.modifiers m, held_insert]
      refine ⟨⟨⟨_, hsent, ?_⟩, hheld, nofun⟩, ?_⟩
      · simp only [Hands.Due, hv', Bool.false_eq_true, if_false, hk]
        refine ⟨_, rfl, (honce ht.once).filter _, ?_⟩
        intro m
        simp only [List.mem_filter, decide_eq_true_eq, hmods m, ht.modifiers m]
        constructor
        · rintro ⟨hm | hm, hne⟩
          · exact absurd hm.symm hne
          · exact ⟨hm, fun heq => hne heq.symm⟩
        · rintro ⟨hm, hne⟩
          exact ⟨Or.inr hm, fun heq => hne heq.symm⟩
      · refine ⟨?_, ?_, ?_, hheld, honce ht.once, ?_⟩
        · rw [hafter]
          exact hview.trans ht.viewOnly
        · intro i k' hi
          rw [hkeys] at hi
          rw [hafter]
          show (i, k') ∈ h.down.insert (id, k)
          rw [List.mem_insert_iff]
          by_cases hne : i = id
          · subst hne
            rw [AList.lookup_insert] at hi
            cases hi
            exact Or.inl rfl
          · rw [AList.lookup_insert_ne hne] at hi
            exact Or.inr (ht.lookup i k' hi)
        · intro i k' hi
          rw [hafter] at hi
          have hi' : (i, k') ∈ h.down.insert (id, k) := hi
          rw [hkeys]
          by_cases hne : i = id
          · subst hne
            rw [AList.lookup_insert]
            nofun
          · rw [AList.lookup_insert_ne hne]
            rcases List.mem_insert_iff.mp hi' with heq | hmem
            · cases heq
              exact absurd rfl hne
            · exact ht.ids i k' hmem
        · rw [hafter]
          exact ht.nodup.insert

/-! ## The release of all -/

theorem foldl_release (s : Keys) (order : List Key) :
    order.foldl (fun s k => s.key k false) s =
      { s with sent := s.sent ++ order.map fun k => ⟨false, k, []⟩ } := by
  induction order generalizing s with
  | nil => simp
  | cons k order ih =>
    rw [List.foldl_cons, ih]
    cases k <;> simp [Keys.key]

theorem releaseAllKeys_eq (s : Keys) (order : List Key) :
    s.releaseAllKeys order =
      { s with keys := ∅, modifiers := [], sent := s.sent ++ order.map fun k => ⟨false, k, []⟩ } := by
  unfold Keys.releaseAllKeys
  rw [foldl_release]

/-- The map's entries are among what is down, and all of it if each id is down as one key. -/
theorem perm_values_iff (ht : Tracks s h) : (values s.keys).Perm (h.down.map (·.2)) ↔ h.Single := by
  let pairs : List (Int64 × Key) := s.keys.entries.map fun e => (e.1, e.2)
  have hvalues : values s.keys = pairs.map (·.2) := by simp [values, pairs]
  have hmem : ∀ id k, (id, k) ∈ pairs ↔ s.keys.lookup id = some k := by
    intro id k
    rw [← Option.mem_def, AList.mem_lookup_iff]
    constructor
    · intro hp
      obtain ⟨⟨i, k'⟩, he, heq⟩ := List.mem_map.mp hp
      cases heq
      exact he
    · intro he
      exact List.mem_map.mpr ⟨_, he, rfl⟩
  have hnd : pairs.Nodup := by
    have hinj : Function.Injective fun e : (_ : Int64) × Key => (e.1, e.2) := by
      rintro ⟨i, k⟩ ⟨i', k'⟩ heq
      cases heq
      rfl
    exact s.keys.nodupKeys.nodup.map hinj
  have hsub : pairs ⊆ h.down := by
    rintro ⟨i, k⟩ hp
    exact ht.lookup i k ((hmem i k).mp hp)
  rw [hvalues]
  constructor
  · intro hp
    have hlen : h.down.length ≤ pairs.length := by
      have heq := hp.length_eq
      simp only [List.length_map, pairs] at heq ⊢
      omega
    have hperm : pairs.Perm h.down := (List.subperm_of_subset hnd hsub).perm_of_length_le hlen
    intro i k k' hk hk'
    have h1 := (hmem i k).mp (hperm.mem_iff.mpr hk)
    have h2 := (hmem i k').mp (hperm.mem_iff.mpr hk')
    exact Option.some.inj (h2.symm.trans h1)
  · intro hsingle
    refine List.Perm.map _ ((List.perm_ext_iff_of_nodup hnd ht.nodup).mpr ?_)
    rintro ⟨i, k⟩
    rw [hmem]
    refine ⟨ht.lookup i k, fun hk => ?_⟩
    obtain ⟨k', hk'⟩ := Option.ne_none_iff_exists'.mp (ht.ids i k hk)
    rw [hk', hsingle i k k' hk (ht.lookup i k' hk')]

theorem not_held_of_nil (hd : h.down = []) : ¬h.Held m := by
  rintro ⟨p, hp, -⟩
  rw [hd] at hp
  cases hp

/-- A release of all is followed exactly if each id is down as one key. -/
theorem Tracks.released_iff (ht : Tracks s h) {op : KeyOp} {order : List Key} (ho : order.Perm (values s.keys))
    (hs : s'.keys = ∅ ∧ s'.modifiers = [] ∧ s'.sent = s.sent ++ order.map fun k => ⟨false, k, []⟩)
    (hdue : ∀ out, h.Due op out ↔ Hands.LetsGo (h.down.map (·.2)) out) (hafter : (h.after op).down = []) :
    Follows h op s s' ↔ h.Single := by
  obtain ⟨hkeys, hmods, hsent⟩ := hs
  rw [← perm_values_iff ht]
  constructor
  · intro hf
    obtain ⟨out, heq, hout⟩ := hf.due
    rw [hsent, List.append_cancel_left_eq] at heq
    rw [hdue, ← heq, letsGo_iff] at hout
    exact ho.symm.trans hout
  · intro hp
    refine ⟨⟨_, hsent, (hdue _).mpr (letsGo_iff.mpr (ho.trans hp))⟩, ?_, fun _ => ⟨hkeys, hmods⟩⟩
    intro m
    rw [hmods]
    exact ⟨nofun, fun hm => absurd hm (not_held_of_nil hafter)⟩

theorem tracks_nil (hkeys : s.keys = ∅) (hmods : s.modifiers = []) (hd : h.down = []) (hv : s.viewOnly = h.viewOnly) :
    Tracks s h := by
  refine ⟨hv, ?_, ?_, ?_, ?_, ?_⟩
  · rw [hkeys]
    nofun
  · rw [hd]
    nofun
  · intro m
    rw [hmods]
    exact ⟨nofun, fun hm => absurd hm (not_held_of_nil hd)⟩
  · rw [hmods]
    exact List.nodup_nil
  · rw [hd]
    exact List.nodup_nil

/-! ## Every run -/

/-- One call is followed exactly if it is tidy, and then what the next one rests on is kept. -/
theorem Tracks.step (ht : Tracks s h) {op : KeyOp} (hs : Keys.step s op = some s') :
    (Follows h op s s' ↔ h.Tidy op) ∧ (h.Tidy op → Tracks s' (h.after op)) := by
  cases op with
  | keyDown keysym id =>
    cases hs
    exact ⟨iff_of_true ht.keyDown.1 trivial, fun _ => ht.keyDown.2⟩
  | keyUp id =>
    cases hs
    exact ⟨ht.keyUp_iff, fun htidy => ht.keyUp (ht.keyUp_iff.mpr htidy).modifiers⟩
  | releaseAllKeys order =>
    unfold Keys.step at hs
    dsimp only at hs
    split at hs
    · rename_i ho
      cases hs
      rw [releaseAllKeys_eq]
      exact ⟨ht.released_iff ho ⟨rfl, rfl, rfl⟩ (fun _ => Iff.rfl) rfl, fun _ => tracks_nil rfl rfl rfl ht.viewOnly⟩
    · cases hs
  | setViewOnly viewOnly order =>
    cases viewOnly with
    | true =>
      unfold Keys.step at hs
      dsimp only at hs
      rw [if_pos rfl] at hs
      split at hs
      · rename_i ho
        cases hs
        rw [releaseAllKeys_eq]
        have htidy : h.Tidy (.setViewOnly true order) ↔ h.Single := ⟨fun hsingle => hsingle rfl, fun hsingle _ => hsingle⟩
        rw [htidy]
        refine ⟨ht.released_iff ho ⟨rfl, rfl, rfl⟩ ?_ rfl, fun _ => tracks_nil rfl rfl rfl rfl⟩
        intro out
        simp [Hands.Due]
      · cases hs
    | false =>
      cases hs
      refine ⟨iff_of_true ⟨⟨[], (List.append_nil _).symm, rfl⟩, ht.modifiers, nofun⟩ nofun, fun _ => ?_⟩
      exact ⟨rfl, ht.lookup, ht.ids, ht.modifiers, ht.once, ht.nodup⟩

theorem hands_snoc (pre : List KeyOp) (op : KeyOp) : hands (pre ++ [op]) = (hands pre).after op := by
  simp [hands]

/-- Ctrl and C, pressed and let go. -/
def chord : List KeyOp := [.keyDown 0xffe3 1, .keyDown 0x63 2, .keyUp 2, .keyUp 1]

end Vento.Rustdesk.Keymap
