import Mathlib.Data.List.Basic
import Mathlib.Data.List.Perm.Basic
import Mathlib.Logic.Function.Basic
import Vento.Control.GestureRecognizer
/-!
# Who gets a pointer

`control/input/TouchRouter.java`, which turns frames of touches into calls for each
pointer: the widgets that share the surface are offered a pointer when it goes
down, the first that takes it owns it, and what no widget takes goes to the
gestures. The frames are those of `control/input/TouchFrame.java`: the action, the
pointer it is about and every pointer on the glass, at most ten of them. Where a
pointer is is of any type; the time, which the router passes along, is left out.

`World` is the router with the gestures behind it and the glass before it. A frame
of the screen has to be well formed; a call of `cancel` may come at any time, with
fingers on the glass.
-/

namespace Vento.Control

open Vento.Lib

namespace TouchRouter

variable {P C : Type}

inductive Action where
  | down
  | move
  | up
  | cancel
deriving DecidableEq, Repr

def maxPointers : Nat := 10

/-- The pointers on the glass with their places, the new one and the lifting one
among them. -/
structure TouchFrame (P : Type) where
  action : Action
  index : Int
  pointers : List (Int × P)
  nonempty : 0 < pointers.length
  size : pointers.length ≤ maxPointers

namespace TouchFrame

def ids (f : TouchFrame P) : List Int := f.pointers.map Prod.fst

def clampIndex (f : TouchFrame P) : Nat :=
  if 0 ≤ f.index ∧ f.index < f.pointers.length then f.index.toNat else 0

theorem clampIndex_lt (f : TouchFrame P) : f.clampIndex < f.pointers.length := by
  unfold clampIndex
  split
  · omega
  · exact f.nonempty

/-- The pointer that the action is about. -/
def pointer (f : TouchFrame P) : Int × P := f.pointers.get ⟨f.clampIndex, f.clampIndex_lt⟩

theorem pointer_mem (f : TouchFrame P) : f.pointer.1 ∈ f.ids := List.mem_map_of_mem (List.get_mem _ _)

end TouchFrame

/-- The calls of the listener. -/
inductive Touch (P : Type) where
  | touchBegan (id : Int) (p : P)
  | touchMoved (id : Int) (prev p : P)
  | touchEnded (id : Int) (prev p : P)
  | touchCancelled

/-- The calls of a widget; an offer comes with its answer. -/
inductive ClaimCall (P : Type) where
  | claimTouch (id : Int) (p : P) (taken : Bool)
  | claimMoved (id : Int) (p : P)
  | claimEnded (id : Int) (p : P)
  | claimCancelled

inductive Delivery (P C : Type) where
  | listener (t : Touch P)
  | claim (c : C) (call : ClaimCall P)

/-- An entry of a table without holes goes: the last one takes its place. -/
def swapRemove {α : Type} (l : List α) (k : Nat) : List α :=
  match l.getLast? with
  | some e => (l.set k e).dropLast
  | none => l

structure Router (P C : Type) where
  claims : List C
  owner : Int → Option C
  last : List (Int × P)

namespace Router

def new : Router P C := ⟨[], fun _ => none, []⟩

def addClaim (s : Router P C) (c : C) : Router P C := { s with claims := s.claims ++ [c] }

def trackable (id : Int) : Bool := 0 ≤ id ∧ id < 64

/-- `trackable(id) && owner[id] != null`, with the owner. -/
def ownerOf (s : Router P C) (id : Int) : Option C := if trackable id then s.owner id else none

def indexOf (s : Router P C) (id : Int) : Option Nat := s.last.findIdx? fun e => e.1 = id

def remember (s : Router P C) (id : Int) (p : P) : Router P C :=
  match s.indexOf id with
  | some k => { s with last := s.last.set k (id, p) }
  | none => if s.last.length = maxPointers then s else { s with last := s.last ++ [(id, p)] }

def forget (s : Router P C) (id : Int) : Router P C :=
  match s.indexOf id with
  | some k => { s with last := swapRemove s.last k }
  | none => s

/-- Where the pointer was, if it is remembered. -/
def lastOf (s : Router P C) (id : Int) : Option P := (s.last.find? fun e => e.1 = id).map Prod.snd

/-- The widgets are asked in order until one takes the pointer. -/
def offers (takes : C → Bool) (id : Int) (p : P) : List C → List (Delivery P C)
  | [] => []
  | c :: cs =>
    if takes c then [.claim c (.claimTouch id p true)]
    else .claim c (.claimTouch id p false) :: offers takes id p cs

/-- The widget that takes a new pointer. -/
def taker (s : Router P C) (takes : C → Bool) (id : Int) : Option C :=
  if trackable id then s.claims.find? takes else none

def down (s : Router P C) (takes : C → Bool) (id : Int) (p : P) : Router P C × List (Delivery P C) :=
  let asked := if trackable id then offers takes id p s.claims else []
  match s.taker takes id with
  | some c => ({ s with owner := Function.update s.owner id (some c) }, asked)
  | none => (s.remember id p, asked ++ [.listener (.touchBegan id p)])

def moveOne (s : Router P C) (e : Int × P) : Router P C × List (Delivery P C) :=
  match s.ownerOf e.1 with
  | some c => (s, [.claim c (.claimMoved e.1 e.2)])
  | none =>
    match s.indexOf e.1, s.lastOf e.1 with
    | some k, some prev => ({ s with last := s.last.set k e }, [.listener (.touchMoved e.1 prev e.2)])
    -- never saw it go down
    | _, _ => (s, [])

def move (s : Router P C) : List (Int × P) → Router P C × List (Delivery P C)
  | [] => (s, [])
  | e :: es =>
    let (s, ds) := s.moveOne e
    let (s, ds') := s.move es
    (s, ds ++ ds')

def up (s : Router P C) (id : Int) (p : P) : Router P C × List (Delivery P C) :=
  match s.ownerOf id with
  | some c => ({ s with owner := Function.update s.owner id none }, [.claim c (.claimEnded id p)])
  | none => (s.forget id, [.listener (.touchEnded id ((s.lastOf id).getD p) p)])

def cancel (s : Router P C) : Router P C × List (Delivery P C) :=
  ({ s with last := [], owner := fun _ => none },
    s.claims.map (.claim · .claimCancelled) ++ [.listener .touchCancelled])

/-- `takes` are the widgets' answers to a new pointer. -/
def handle (s : Router P C) (f : TouchFrame P) (takes : C → Bool) : Router P C × List (Delivery P C) :=
  match f.action with
  | .down => s.down takes f.pointer.1 f.pointer.2
  | .move => s.move f.pointers
  | .up => s.up f.pointer.1 f.pointer.2
  | .cancel => s.cancel

end Router

/-! ## The router between the glass and the gestures -/

open GestureRecognizer (Reading Task Config)

/-- What the gestures make of a call of the listener. -/
def feed (r : Touch P → Reading) (g : GestureRecognizer.State) (t : Touch P) : GestureRecognizer.State :=
  match t with
  | .touchBegan id _ => g.touchBegan id
  | .touchMoved id _ _ => g.touchMoved (r t) id
  | .touchEnded id _ _ => g.touchEnded (r t) id
  | .touchCancelled => g.touchCancelled (r t)

def Delivery.touch? : Delivery P C → Option (Touch P)
  | .listener t => some t
  | .claim _ _ => none

/-- `unclaimed` are the pointers that went down with no widget taking them since
the last cancel and that are down still. -/
structure World (P C : Type) where
  router : Router P C
  gestures : GestureRecognizer.State
  glass : List Int
  unclaimed : List Int
  delivered : List (Delivery P C)

namespace World

def new (cfg : Config) (zoomSink : Bool) : World P C where
  router := .new
  gestures := GestureRecognizer.init cfg zoomSink
  glass := []
  unclaimed := []
  delivered := []

/-- A frame that the screen can send: it lists the pointers on the glass, one goes
down that is not there, and one goes up that is. -/
def wellFormed (w : World P C) (f : TouchFrame P) : Bool :=
  match f.action with
  | .down => f.ids.Nodup ∧ 0 ≤ f.index ∧ f.index < f.pointers.length ∧ f.pointer.1 ∉ w.glass ∧
      (∀ id ∈ f.ids, id = f.pointer.1 ∨ id ∈ w.glass) ∧ ∀ id ∈ w.glass, id ∈ f.ids
  | .move => f.ids.Nodup ∧ (∀ id ∈ f.ids, id ∈ w.glass) ∧ ∀ id ∈ w.glass, id ∈ f.ids
  | .up => f.ids.Nodup ∧ 0 ≤ f.index ∧ f.index < f.pointers.length ∧ f.pointer.1 ∈ w.glass ∧
      (∀ id ∈ f.ids, id ∈ w.glass) ∧ ∀ id ∈ w.glass, id ∈ f.ids
  | .cancel => true

/-- The router's answer to something, and what the gestures make of it. -/
def deliver (w : World P C) (r : Touch P → Reading) (out : Router P C × List (Delivery P C)) : World P C :=
  { w with
    router := out.1
    gestures := (out.2.filterMap Delivery.touch?).foldl (feed r) w.gestures
    delivered := w.delivered ++ out.2 }

def frame (w : World P C) (f : TouchFrame P) (takes : C → Bool) (r : Touch P → Reading) : World P C :=
  let id := f.pointer.1
  let w' := w.deliver r (w.router.handle f takes)
  match f.action with
  | .down => { w' with
      glass := id :: w.glass
      unclaimed := if (w.router.taker takes id).isSome then w.unclaimed else id :: w.unclaimed }
  | .move => w'
  | .up => { w' with glass := w.glass.erase id, unclaimed := w.unclaimed.erase id }
  | .cancel => { w' with glass := [], unclaimed := [] }

/-- A call of `cancel`, which takes no finger off the glass. -/
def cancel (w : World P C) (r : Touch P → Reading) : World P C :=
  { w.deliver r w.router.cancel with unclaimed := [] }

end World

inductive Act (P C : Type) where
  | frame (f : TouchFrame P) (takes : C → Bool) (r : Touch P → Reading)
  | cancel (r : Touch P → Reading)
  | suspendInput (r : Touch P → Reading)
  | expire (r : Reading) (t : Task)
  | addClaim (c : C)

def step (w : World P C) : Act P C → Option (World P C)
  | .frame f takes r => if w.wellFormed f then some (w.frame f takes r) else none
  | .cancel r => some (w.cancel r)
  -- the session leaves the screen: the router's cancel, then the gestures'
  | .suspendInput r =>
    let w := w.cancel r
    some { w with gestures := w.gestures.cancelAll (r .touchCancelled) }
  | .expire r t => (GestureRecognizer.step w.gestures (.expire r t)).map fun gestures => { w with gestures }
  | .addClaim c => some { w with router := w.router.addClaim c }

/-! ## One consumer for each pointer -/

inductive Consumer (C : Type) where
  | listener
  | claim (c : C)
deriving DecidableEq

theorem swapRemove_perm {α : Type} {l : List α} {k : Nat} (hk : k < l.length) : (swapRemove l k).Perm (l.eraseIdx k) := by
  rcases List.eq_nil_or_concat l with rfl | ⟨l, e, rfl⟩
  · cases hk
  rw [List.concat_eq_append] at hk ⊢
  simp only [swapRemove, List.getLast?_concat]
  rw [List.length_append, List.length_singleton] at hk
  rcases Nat.lt_or_eq_of_le (Nat.le_of_lt_succ hk) with hk | rfl
  · rw [List.set_append_left k e hk, List.dropLast_concat, List.eraseIdx_append_of_lt_length hk]
    refine (List.set_perm_cons_eraseIdx hk e).trans ?_
    exact (List.perm_append_singleton e _).symm
  · rw [List.set_append_right l.length e (Nat.le_refl _), List.eraseIdx_append_of_length_le (Nat.le_refl _)]
    simp

namespace Router

/-- Who the router gives the events of a pointer that has gone down. -/
def consumer (s : Router P C) (id : Int) : Option (Consumer C) :=
  match s.ownerOf id with
  | some c => some (.claim c)
  | none => if id ∈ s.last.map Prod.fst then some .listener else none

/-- An owner was asked, and owns what the listener has not. -/
structure Inv (s : Router P C) : Prop where
  trackable : ∀ id c, s.owner id = some c → trackable id = true
  asked : ∀ id c, s.owner id = some c → c ∈ s.claims
  apart : ∀ id c, s.owner id = some c → id ∉ s.last.map Prod.fst
  nodup : (s.last.map Prod.fst).Nodup

variable {s t : Router P C}

theorem Inv.ownerOf_eq (h : s.Inv) (id : Int) : s.ownerOf id = s.owner id := by
  unfold ownerOf
  split
  · rfl
  · rename_i hid
    cases ho : s.owner id with
    | none => rfl
    | some c => exact absurd (h.trackable id c ho) hid

theorem consumer_eq_none {id : Int} : s.consumer id = none ↔ s.ownerOf id = none ∧ id ∉ s.last.map Prod.fst := by
  unfold consumer
  split
  · simp [*]
  · split <;> simp_all

theorem consumer_eq_listener {id : Int} :
    s.consumer id = some .listener ↔ s.ownerOf id = none ∧ id ∈ s.last.map Prod.fst := by
  unfold consumer
  split
  · simp [*]
  · split <;> simp_all

theorem consumer_eq_claim {id : Int} {c : C} : s.consumer id = some (.claim c) ↔ s.ownerOf id = some c := by
  unfold consumer
  split
  · simp [*]
  · split <;> simp_all

/-- Who has which pointer does not depend on where the pointers are. -/
theorem consumer_congr (ho : t.owner = s.owner) (hl : t.last.map Prod.fst = s.last.map Prod.fst) :
    t.consumer = s.consumer := by
  funext id
  simp only [consumer, ownerOf, ho, hl]

theorem indexOf_eq_none {id : Int} : s.indexOf id = none ↔ id ∉ s.last.map Prod.fst := by
  simp only [indexOf, List.findIdx?_eq_none_iff, decide_eq_false_iff_not, List.mem_map, not_exists, not_and]

theorem indexOf_eq_some {id : Int} {k : Nat} (h : s.indexOf id = some k) :
    ∃ hk : k < s.last.length, (s.last.get ⟨k, hk⟩).1 = id := by
  obtain ⟨hk, h, -⟩ := List.findIdx?_eq_some_iff_getElem.1 h
  exact ⟨hk, by simpa using h⟩

/-! What the parts of a frame do to the router. -/

theorem owner_update_inv {id : Int} {c : C} (h : s.Inv) (hc : c ∈ s.claims) (hid : Router.trackable id = true)
    (hl : id ∉ s.last.map Prod.fst) : ({ s with owner := Function.update s.owner id (some c) } : Router P C).Inv where
  trackable id' c' ho := by
    by_cases he : id' = id
    · exact he ▸ hid
    · exact h.trackable id' c' ((Function.update_of_ne he _ _).symm.trans ho)
  asked id' c' ho := by
    by_cases he : id' = id
    · subst he
      cases (Function.update_self id' (some c) s.owner).symm.trans ho
      exact hc
    · exact h.asked id' c' ((Function.update_of_ne he _ _).symm.trans ho)
  apart id' c' ho := by
    by_cases he : id' = id
    · exact he ▸ hl
    · exact h.apart id' c' ((Function.update_of_ne he _ _).symm.trans ho)
  nodup := h.nodup

theorem owner_clear_inv (h : s.Inv) (id : Int) :
    ({ s with owner := Function.update s.owner id none } : Router P C).Inv := by
  have ho : ∀ id' c, Function.update s.owner id none id' = some c → s.owner id' = some c := by
    intro id' c ho
    by_cases he : id' = id
    · subst he
      rw [Function.update_self] at ho
      cases ho
    · rwa [Function.update_of_ne he] at ho
  exact ⟨fun id' c h' => h.trackable id' c (ho id' c h'), fun id' c h' => h.asked id' c (ho id' c h'),
    fun id' c h' => h.apart id' c (ho id' c h'), h.nodup⟩

theorem taker_eq_some {takes : C → Bool} {id : Int} {c : C} (h : s.taker takes id = some c) :
    Router.trackable id = true ∧ s.claims.find? takes = some c := by
  unfold taker at h
  split at h
  · exact ⟨‹_›, h⟩
  · cases h

/-- A widget takes a pointer that nobody has. -/
theorem down_claimed {takes : C → Bool} {id : Int} {c : C} (h : s.Inv) (ht : s.taker takes id = some c)
    (hn : s.consumer id = none) (p : P) :
    (s.down takes id p).1.Inv ∧ (s.down takes id p).1.consumer = Function.update s.consumer id (some (.claim c)) ∧
      (s.down takes id p).1.last = s.last := by
  obtain ⟨hid, hf⟩ := taker_eq_some ht
  have hl := (consumer_eq_none.1 hn).2
  simp only [down, ht]
  refine ⟨owner_update_inv h (List.mem_of_find?_eq_some hf) hid hl, ?_, trivial⟩
  funext id'
  by_cases he : id' = id
  · subst he
    rw [Function.update_self, consumer_eq_claim]
    simp [ownerOf, hid]
  · rw [Function.update_of_ne he]
    simp only [consumer, ownerOf, Function.update_of_ne he]

/-- The listener gets a pointer that nobody has, and the router remembers it. -/
theorem down_free {takes : C → Bool} {id : Int} (h : s.Inv) (ht : s.taker takes id = none)
    (hn : s.consumer id = none) (hlen : s.last.length < maxPointers) (p : P) :
    (s.down takes id p).1.Inv ∧ (s.down takes id p).1.consumer = Function.update s.consumer id (some .listener) ∧
      (s.down takes id p).1.last = s.last ++ [(id, p)] := by
  obtain ⟨ho, hl⟩ := consumer_eq_none.1 hn
  have hr : s.remember id p = { s with last := s.last ++ [(id, p)] } := by
    rw [remember, indexOf_eq_none.2 hl]
    exact if_neg (Nat.ne_of_lt hlen)
  simp only [down, ht, hr]
  refine ⟨⟨h.trackable, h.asked, fun id' c ho' => ?_, ?_⟩, ?_, trivial⟩
  · rw [List.map_append, List.mem_append]
    rintro (hm | hm)
    · exact h.apart id' c ho' hm
    · obtain rfl : id' = id := by simpa using hm
      rw [← h.ownerOf_eq, ho] at ho'
      cases ho'
  · rw [List.map_append]
    refine List.nodup_append.2 ⟨h.nodup, by simp, fun a ha b hb he => hl ?_⟩
    obtain rfl : b = id := by simpa using hb
    exact he ▸ ha
  · funext id'
    by_cases he : id' = id
    · subst he
      rw [Function.update_self, consumer_eq_listener]
      exact ⟨ho, by simp⟩
    · have hm : id' ∈ (s.last ++ [(id, p)]).map Prod.fst ↔ id' ∈ s.last.map Prod.fst := by simp [he]
      rw [Function.update_of_ne he]
      simp only [consumer, ownerOf, hm]

/-- A move changes where the pointers are and nothing else. -/
theorem moveOne_frame (s : Router P C) (e : Int × P) :
    (s.moveOne e).1.claims = s.claims ∧ (s.moveOne e).1.owner = s.owner ∧
      (s.moveOne e).1.last.map Prod.fst = s.last.map Prod.fst := by
  unfold moveOne
  split
  · exact ⟨rfl, rfl, rfl⟩
  split
  · rename_i k prev hk hp
    obtain ⟨hlt, hid⟩ := indexOf_eq_some hk
    refine ⟨rfl, rfl, ?_⟩
    have hself : (s.last.map Prod.fst).set k ((s.last.map Prod.fst).get ⟨k, by simpa using hlt⟩) = s.last.map Prod.fst :=
      List.set_getElem_self _
    rw [List.map_set, ← hid]
    simpa using hself
  · exact ⟨rfl, rfl, rfl⟩

theorem moveOne_inv (h : s.Inv) (e : Int × P) : (s.moveOne e).1.Inv := by
  obtain ⟨hc, ho, hl⟩ := s.moveOne_frame e
  exact ⟨fun id c => ho ▸ h.trackable id c, fun id c => ho ▸ hc ▸ h.asked id c, fun id c => ho ▸ hl ▸ h.apart id c,
    hl ▸ h.nodup⟩

theorem moveOne_consumer (s : Router P C) (e : Int × P) : (s.moveOne e).1.consumer = s.consumer :=
  consumer_congr (s.moveOne_frame e).2.1 (s.moveOne_frame e).2.2

theorem forget_last {id : Int} (hid : id ∈ s.last.map Prod.fst) :
    ((s.forget id).last.map Prod.fst).Perm ((s.last.map Prod.fst).erase id) := by
  cases hk : s.indexOf id with
  | none => exact absurd hid (indexOf_eq_none.1 hk)
  | some k =>
    obtain ⟨hlt, hke⟩ := indexOf_eq_some hk
    simp only [forget, hk]
    refine ((swapRemove_perm hlt).map Prod.fst).trans (List.Perm.cons_inv (a := id) ?_)
    have := (List.getElem_cons_eraseIdx_perm hlt).map Prod.fst
    rw [List.map_cons, show (s.last[k]).1 = id from hke] at this
    exact this.trans (List.perm_cons_erase hid)

/-- The owner of a pointer that goes up has it no more. -/
theorem up_claimed {id : Int} {c : C} (h : s.Inv) (ho : s.ownerOf id = some c) (p : P) :
    (s.up id p).1.Inv ∧ (s.up id p).1.consumer = Function.update s.consumer id none ∧
      (s.up id p).1.last = s.last := by
  have hl : id ∉ s.last.map Prod.fst := h.apart id c ((h.ownerOf_eq id).symm.trans ho)
  simp only [up, ho]
  refine ⟨owner_clear_inv h id, ?_, trivial⟩
  funext id'
  by_cases he : id' = id
  · subst he
    rw [Function.update_self, consumer_eq_none]
    exact ⟨by simp [ownerOf], hl⟩
  · rw [Function.update_of_ne he]
    simp only [consumer, ownerOf, Function.update_of_ne he]

/-- The listener has a pointer that goes up no more. -/
theorem up_free {id : Int} (h : s.Inv) (ho : s.ownerOf id = none) (hid : id ∈ s.last.map Prod.fst) (p : P) :
    (s.up id p).1.Inv ∧ (s.up id p).1.consumer = Function.update s.consumer id none ∧
      ((s.up id p).1.last.map Prod.fst).Perm ((s.last.map Prod.fst).erase id) := by
  have hp := forget_last hid
  have hf : (s.forget id).owner = s.owner ∧ (s.forget id).claims = s.claims := by
    unfold forget
    split <;> exact ⟨rfl, rfl⟩
  have hmem : ∀ id', id' ∈ (s.forget id).last.map Prod.fst ↔ id' ≠ id ∧ id' ∈ s.last.map Prod.fst := by
    intro id'
    rw [hp.mem_iff, h.nodup.mem_erase_iff]
  simp only [up, ho]
  refine ⟨⟨fun id' c => hf.1 ▸ h.trackable id' c, fun id' c => hf.1 ▸ hf.2 ▸ h.asked id' c, fun id' c ho' hm => ?_, ?_⟩,
    ?_, hp⟩
  · exact h.apart id' c (hf.1 ▸ ho') ((hmem id').1 hm).2
  · exact hp.nodup_iff.2 (h.nodup.erase id)
  · funext id'
    by_cases he : id' = id
    · subst he
      rw [Function.update_self, consumer_eq_none]
      exact ⟨by rw [ownerOf, hf.1]; exact ho, by simp [hmem]⟩
    · have hm : id' ∈ (s.forget id).last.map Prod.fst ↔ id' ∈ s.last.map Prod.fst := by simp [hmem, he]
      rw [Function.update_of_ne he]
      simp only [consumer, ownerOf, hf.1, hm]

theorem cancel_inv (s : Router P C) : s.cancel.1.Inv where
  trackable _ _ h := nomatch h
  asked _ _ h := nomatch h
  apart _ _ h := nomatch h
  nodup := List.nodup_nil

theorem cancel_consumer (s : Router P C) : s.cancel.1.consumer = fun _ => none := by
  funext id
  rw [consumer_eq_none]
  simp [cancel, ownerOf]

end Router

section

variable [DecidableEq C]

/-- Follows who has which pointer: a consumer hears of a pointer from its start
with this consumer to its end or a cancel, and no other does meanwhile. -/
def follow (has : Int → Option (Consumer C)) : Delivery P C → Option (Int → Option (Consumer C))
  | .listener (.touchBegan id _) => if has id = none then some (Function.update has id (some .listener)) else none
  | .listener (.touchMoved id _ _) => if has id = some .listener then some has else none
  | .listener (.touchEnded id _ _) =>
    if has id = some .listener then some (Function.update has id none) else none
  | .listener .touchCancelled => some fun id => if has id = some .listener then none else has id
  | .claim _ (.claimTouch _ _ false) => some has
  | .claim c (.claimTouch id _ true) =>
    if has id = none then some (Function.update has id (some (.claim c))) else none
  | .claim c (.claimMoved id _) => if has id = some (.claim c) then some has else none
  | .claim c (.claimEnded id _) =>
    if has id = some (.claim c) then some (Function.update has id none) else none
  | .claim c .claimCancelled => some fun id => if has id = some (.claim c) then none else has id

theorem run_follow_offers {has : Int → Option (Consumer C)} {id : Int} (hn : has id = none) (takes : C → Bool) (p : P)
    (cs : List C) :
    run follow has (Router.offers takes id p cs) =
      some (match cs.find? takes with
        | some c => Function.update has id (some (.claim c))
        | none => has) := by
  induction cs with
  | nil => rfl
  | cons c cs ih =>
    by_cases hc : takes c = true
    · simp [Router.offers, hc, run_cons, follow, hn]
    · simp only [Router.offers, hc, Bool.false_eq_true, if_false, run_cons, follow, Option.bind_some, List.find?_cons]
      exact ih

theorem run_follow_claimCancelled (has : Int → Option (Consumer C)) (cs : List C) :
    run follow has (cs.map fun c => (Delivery.claim c .claimCancelled : Delivery P C)) =
      some fun id => if ∃ c ∈ cs, has id = some (.claim c) then none else has id := by
  induction cs generalizing has with
  | nil => simp [run]
  | cons c cs ih =>
    rw [List.map_cons, run_cons]
    simp only [follow, Option.bind_some, ih, Option.some_inj]
    funext id
    by_cases hc : has id = some (.claim c)
    · simp [hc]
    · simp [hc]

namespace Router

variable {s : Router P C}

theorem cancel_followed (h : s.Inv) : run follow s.consumer s.cancel.2 = some s.cancel.1.consumer := by
  rw [cancel_consumer, cancel, run_append, run_follow_claimCancelled]
  simp only [Option.bind_some, run_cons, follow, run_nil, Option.some_inj]
  funext id
  cases hc : s.consumer id with
  | none => simp
  | some k =>
    cases k with
    | listener => simp
    | claim c =>
      have := h.asked id c ((h.ownerOf_eq id).symm.trans (consumer_eq_claim.1 hc))
      simp [this]

theorem moveOne_followed (s : Router P C) (e : Int × P) : run follow s.consumer (s.moveOne e).2 = some s.consumer := by
  unfold moveOne
  split
  · rename_i c hc
    simp [run_cons, follow, consumer_eq_claim.2 hc]
  split
  · rename_i ho _ _ k prev hk hp
    have hid : e.1 ∈ s.last.map Prod.fst := by
      by_contra hn
      rw [indexOf_eq_none.2 hn] at hk
      cases hk
    simp [run_cons, follow, consumer_eq_listener.2 ⟨ho, hid⟩]
  · rfl

/-- The moves of a frame reach those who have the pointers. -/
theorem move_followed (s : Router P C) (es : List (Int × P)) : run follow s.consumer (s.move es).2 = some s.consumer := by
  induction es generalizing s with
  | nil => rfl
  | cons e es ih =>
    simp only [move]
    rw [run_append, s.moveOne_followed e, ← s.moveOne_consumer e]
    exact ih (s.moveOne e).1

end Router

end

namespace Router

variable {s : Router P C}

theorem move_frame (h : s.Inv) (es : List (Int × P)) :
    (s.move es).1.Inv ∧ (s.move es).1.consumer = s.consumer ∧
      (s.move es).1.last.map Prod.fst = s.last.map Prod.fst := by
  induction es generalizing s with
  | nil => exact ⟨h, rfl, rfl⟩
  | cons e es ih =>
    obtain ⟨hi, hc, hl⟩ := ih (moveOne_inv h e)
    exact ⟨hi, hc.trans (s.moveOne_consumer e), hl.trans (s.moveOne_frame e).2.2⟩

/-! ## The fingers the gestures count -/

/-- What the gestures' count of fingers is after a call. -/
theorem feed_down (r : Touch P → Reading) (g : GestureRecognizer.State) (t : Touch P) :
    (feed r g t).down =
      match t with
      | .touchBegan _ _ => g.down + 1
      | .touchMoved _ _ _ => g.down
      | .touchEnded _ _ _ => g.down - 1
      | .touchCancelled => 0 := by
  cases t with
  | touchBegan id p => rfl
  | touchMoved id prev p => exact (g.touchMoved_quiet _ id).down
  | touchEnded id prev p => exact g.touchEnded_down _ id
  | touchCancelled => exact g.touchCancelled_down _

/-- The count after the listener's calls among these. -/
def counts (r : Touch P → Reading) (g : GestureRecognizer.State) (ds : List (Delivery P C)) : Nat :=
  ((ds.filterMap Delivery.touch?).foldl (feed r) g).down

theorem counts_move (r : Touch P → Reading) (g : GestureRecognizer.State) (s : Router P C) (es : List (Int × P)) :
    counts r g (s.move es).2 = g.down := by
  induction es generalizing s g with
  | nil => rfl
  | cons e es ih =>
    have hone : counts r g (s.moveOne e).2 = g.down := by
      unfold moveOne
      split
      · rfl
      split
      · exact feed_down r g (.touchMoved e.1 _ e.2)
      · rfl
    simp only [move, counts, List.filterMap_append, List.foldl_append] at hone ⊢
    rw [← hone]
    exact ih _ _

theorem offers_touch (takes : C → Bool) (id : Int) (p : P) (cs : List C) :
    (offers takes id p cs).filterMap Delivery.touch? = [] := by
  induction cs with
  | nil => rfl
  | cons c cs ih =>
    unfold offers
    split
    · rfl
    · exact ih

theorem counts_down (r : Touch P → Reading) (g : GestureRecognizer.State) (s : Router P C) (takes : C → Bool) (id : Int)
    (p : P) :
    counts r g (s.down takes id p).2 = if (s.taker takes id).isSome then g.down else g.down + 1 := by
  have hasked : (if trackable id then offers takes id p s.claims else []).filterMap Delivery.touch? = [] := by
    split
    · exact offers_touch takes id p s.claims
    · rfl
  unfold down
  cases hc : s.taker takes id with
  | some c => simp [counts, hasked]
  | none => simp [counts, hasked, Delivery.touch?, feed]

theorem counts_cancel (r : Touch P → Reading) (g : GestureRecognizer.State) (s : Router P C) :
    counts r g s.cancel.2 = 0 := by
  have hclaims : (s.claims.map fun c => (Delivery.claim c .claimCancelled : Delivery P C)).filterMap Delivery.touch? = [] := by
    rw [List.filterMap_map, List.filterMap_eq_nil_iff]
    exact fun _ _ => rfl
  rw [counts, cancel, List.filterMap_append, hclaims]
  exact feed_down r g .touchCancelled

end Router

section

variable [DecidableEq C]

namespace World

/-- The calls so far give each pointer to one consumer, the one that the router
has for it; the pointers it has someone for are on the glass, and those of the
listener are the ones that the gestures count. -/
structure Inv (w : World P C) : Prop where
  router : w.router.Inv
  followed : run follow (fun _ => none) w.delivered = some w.router.consumer
  glass : ∀ id, w.router.consumer id ≠ none → id ∈ w.glass
  unclaimed : w.unclaimed.Perm (w.router.last.map Prod.fst)
  count : w.gestures.down = w.unclaimed.length

variable {w : World P C}

/-- A delivery that fits the router's answer keeps the invariant. -/
theorem deliver_inv {out : Router P C × List (Delivery P C)} {r : Touch P → Reading} {glass unclaimed : List Int}
    (h : w.Inv) (hi : out.1.Inv) (hf : run follow w.router.consumer out.2 = some out.1.consumer)
    (hg : ∀ id, out.1.consumer id ≠ none → id ∈ glass) (hu : unclaimed.Perm (out.1.last.map Prod.fst))
    (hc : Router.counts r w.gestures out.2 = unclaimed.length) :
    ({ w.deliver r out with glass, unclaimed } : World P C).Inv where
  router := hi
  followed := by
    change run follow _ (w.delivered ++ out.2) = _
    rw [run_append, h.followed]
    exact hf
  glass := hg
  unclaimed := hu
  count := hc

/-- There is room for a new pointer in the frame that brings it. -/
theorem last_length_lt {f : TouchFrame P} (h : w.Inv) (hid : f.pointer.1 ∉ w.glass)
    (hg : ∀ id ∈ w.glass, id ∈ f.ids) : w.router.last.length < maxPointers := by
  have hsub : f.pointer.1 :: w.router.last.map Prod.fst ⊆ f.ids := by
    intro id hm
    rcases List.mem_cons.1 hm with rfl | hm
    · exact f.pointer_mem
    · refine hg id (h.glass id fun hc => (Router.consumer_eq_none.1 hc).2 hm)
  have hnodup : (f.pointer.1 :: w.router.last.map Prod.fst).Nodup := by
    refine List.nodup_cons.2 ⟨fun hm => hid (h.glass _ fun hc => (Router.consumer_eq_none.1 hc).2 hm), h.router.nodup⟩
  have := (List.subperm_of_subset hnodup hsub).length_le
  have hsize := f.size
  simp only [List.length_cons, List.length_map, TouchFrame.ids] at this
  omega

theorem down_inv {f : TouchFrame P} (h : w.Inv) (ha : f.action = .down) (hw : w.wellFormed f = true) (takes : C → Bool)
    (r : Touch P → Reading) : (w.frame f takes r).Inv := by
  simp only [wellFormed, ha, decide_eq_true_eq] at hw
  obtain ⟨-, -, -, hid, -, hg⟩ := hw
  have hlen := last_length_lt h hid hg
  simp only [frame, Router.handle, ha]
  generalize f.pointer.1 = id at hid ⊢
  generalize f.pointer.2 = p
  have hnone : w.router.consumer id = none := by
    by_contra hc
    exact hid (h.glass id hc)
  have hglass : ∀ (k : Consumer C) (id' : Int), Function.update w.router.consumer id (some k) id' ≠ none →
      id' ∈ id :: w.glass := by
    intro k id' hne
    by_cases he : id' = id
    · exact he ▸ List.mem_cons_self
    · rw [Function.update_of_ne he] at hne
      exact List.mem_cons_of_mem id (h.glass id' hne)
  have hcount := Router.counts_down r w.gestures w.router takes id p
  cases ht : w.router.taker takes id with
  | some c =>
    obtain ⟨hi, hcons, hl⟩ := Router.down_claimed h.router ht hnone p
    obtain ⟨hid', hfind⟩ := Router.taker_eq_some ht
    refine deliver_inv h hi ?_ (hcons ▸ hglass (.claim c)) ?_ ?_
    · rw [hcons]
      simp only [Router.down, ht, if_pos hid']
      rw [run_follow_offers hnone, hfind]
    · rw [hl]
      exact h.unclaimed
    · rw [hcount, ht]
      exact h.count
  | none =>
    obtain ⟨hi, hcons, hl⟩ := Router.down_free h.router ht hnone hlen p
    refine deliver_inv h hi ?_ (hcons ▸ hglass .listener) ?_ ?_
    · have hasked : run follow w.router.consumer (if Router.trackable id then Router.offers takes id p w.router.claims
          else []) = some w.router.consumer := by
        split
        · rename_i hid'
          have hfind : w.router.claims.find? takes = none := by simpa [Router.taker, hid'] using ht
          rw [run_follow_offers hnone, hfind]
        · rfl
      rw [hcons]
      simp only [Router.down, ht]
      rw [run_append, hasked]
      simp [run_cons, follow, hnone]
    · rw [hl, List.map_append]
      exact (h.unclaimed.cons id).trans (List.perm_append_singleton id _).symm
    · rw [hcount, ht]
      simpa using h.count

theorem move_inv {f : TouchFrame P} (h : w.Inv) (ha : f.action = .move) (takes : C → Bool) (r : Touch P → Reading) :
    (w.frame f takes r).Inv := by
  simp only [frame, Router.handle, ha]
  obtain ⟨hi, hcons, hl⟩ := Router.move_frame h.router f.pointers
  refine deliver_inv h hi ?_ (hcons ▸ h.glass) (hl ▸ h.unclaimed) ?_
  · rw [hcons]
    exact w.router.move_followed f.pointers
  · rw [Router.counts_move]
    exact h.count

/-- The pointer that goes up is one that the router has someone for. -/
theorem up_inv {f : TouchFrame P} (h : w.Inv) (ha : f.action = .up)
    (hk : w.router.ownerOf f.pointer.1 ≠ none ∨ w.router.indexOf f.pointer.1 ≠ none) (takes : C → Bool)
    (r : Touch P → Reading) : (w.frame f takes r).Inv := by
  simp only [frame, Router.handle, ha]
  generalize f.pointer.1 = id at hk ⊢
  generalize f.pointer.2 = p
  have hglass : ∀ id' : Int, Function.update w.router.consumer id none id' ≠ none → id' ∈ w.glass.erase id := by
    intro id' hne
    by_cases he : id' = id
    · subst he
      exact absurd (Function.update_self _ _ _) hne
    · rw [Function.update_of_ne he] at hne
      exact (List.mem_erase_of_ne he).2 (h.glass id' hne)
  cases ho : w.router.ownerOf id with
  | some c =>
    obtain ⟨hi, hcons, hl⟩ := Router.up_claimed h.router ho p
    have hid : id ∉ w.unclaimed := by
      rw [h.unclaimed.mem_iff]
      exact h.router.apart id c ((h.router.ownerOf_eq id).symm.trans ho)
    refine deliver_inv h hi ?_ (hcons ▸ hglass) ?_ ?_
    · rw [hcons]
      simp [Router.up, ho, run_cons, follow, Router.consumer_eq_claim.2 ho]
    · rw [hl, List.erase_of_not_mem hid]
      exact h.unclaimed
    · rw [List.erase_of_not_mem hid, ← h.count]
      simp only [Router.up, ho]
      rfl
  | none =>
    have hid : id ∈ w.router.last.map Prod.fst := by
      by_contra hn
      exact hk.elim (fun hne => hne ho) (fun hne => hne (Router.indexOf_eq_none.2 hn))
    obtain ⟨hi, hcons, hl⟩ := Router.up_free h.router ho hid p
    refine deliver_inv h hi ?_ (hcons ▸ hglass) ?_ ?_
    · rw [hcons]
      simp [Router.up, ho, run_cons, follow, Router.consumer_eq_listener.2 ⟨ho, hid⟩]
    · exact (h.unclaimed.erase id).trans hl.symm
    · rw [List.length_erase_of_mem (h.unclaimed.mem_iff.2 hid), ← h.count]
      simp only [Router.up, ho]
      exact Router.feed_down r w.gestures (.touchEnded id _ p)

theorem cancel_inv {glass : List Int} (h : w.Inv) (r : Touch P → Reading) :
    ({ w.deliver r w.router.cancel with glass, unclaimed := [] } : World P C).Inv := by
  refine deliver_inv h w.router.cancel_inv (Router.cancel_followed h.router) ?_ (.refl _) (Router.counts_cancel r _ _)
  intro id hne
  rw [Router.cancel_consumer] at hne
  exact absurd rfl hne

end World

/-! ## Runs -/

/-- A pointer that goes up is owned or remembered. The others were on the glass at
the last cancel. -/
def Known (w : World P C) : Act P C → Prop
  | .frame f _ _ =>
    f.action = .up → w.router.ownerOf f.pointer.1 ≠ none ∨ w.router.indexOf f.pointer.1 ≠ none
  | _ => True

theorem step_inv {w w' : World P C} {a : Act P C} (h : w.Inv) (hk : Known w a) (hs : step w a = some w') : w'.Inv := by
  cases a with
  | frame f takes r =>
    simp only [step] at hs
    split at hs
    · cases hs
      cases ha : f.action with
      | down => exact World.down_inv h ha ‹_› takes r
      | move => exact World.move_inv h ha takes r
      | up => exact World.up_inv h ha (hk ha) takes r
      | cancel =>
        simp only [World.frame, Router.handle, ha]
        exact World.cancel_inv h r
    · cases hs
  | cancel r =>
    cases hs
    exact World.cancel_inv h r
  | suspendInput r =>
    cases hs
    have hc : (w.cancel r).Inv := World.cancel_inv h r
    exact ⟨hc.router, hc.followed, hc.glass, hc.unclaimed, GestureRecognizer.State.cancelAll_down _ _⟩
  | expire r t =>
    obtain ⟨g, hg, rfl⟩ := Option.map_eq_some_iff.1 hs
    refine ⟨h.router, h.followed, h.glass, h.unclaimed, ?_⟩
    simp only [GestureRecognizer.step] at hg
    split at hg
    · cases hg
      exact (GestureRecognizer.State.runTask_down _ r t).trans h.count
    · cases hg
  | addClaim c =>
    cases hs
    have hr : (w.router.addClaim c).Inv :=
      ⟨h.router.trackable, fun id c' ho => List.mem_append_left _ (h.router.asked id c' ho), h.router.apart, h.router.nodup⟩
    exact ⟨hr, h.followed, h.glass, h.unclaimed, h.count⟩

theorem new_inv (cfg : Config) (zoomSink : Bool) : (World.new cfg zoomSink : World P C).Inv where
  router := ⟨nofun, nofun, nofun, List.nodup_nil⟩
  followed := by
    refine congrArg some (funext fun id => ?_)
    simp [World.new, Router.new, Router.consumer, Router.ownerOf]
  glass id h := by
    simp [World.new, Router.new, Router.consumer, Router.ownerOf] at h
  unclaimed := .refl _
  count := rfl

instance (w : World P C) : DecidablePred (Known w)
  | .frame f _ _ => inferInstanceAs (Decidable (f.action = .up → _))
  | .cancel _ | .suspendInput _ | .expire _ _ | .addClaim _ => isTrue trivial

/-- In every run of frames and cancels in which no pointer goes up that was on the
glass at the last cancel, the calls give each pointer to one consumer from its start
to its end or a cancel, and the gestures count the unclaimed pointers down since
the last cancel. -/
theorem one_consumer_per_pointer (cfg : Config) (zoomSink : Bool) (as : List (Act P C)) (w : World P C)
    (hm : Meets step Known (World.new cfg zoomSink) as) (hr : run step (World.new cfg zoomSink) as = some w) :
    run follow (fun _ => none) w.delivered = some w.router.consumer ∧ w.gestures.down = w.unclaimed.length := by
  have hi : w.Inv := trace_inv (fun _ w => w.Inv) (new_inv cfg zoomSink) (fun _ _ _ _ h hk hs => step_inv h hk hs) hm hr
  exact ⟨hi.followed, hi.count⟩

end

/-- A frame of pointers of these ids. -/
def frameOf (action : Action) (index : Int) (ids : List Int) (h : 0 < ids.length) (h' : ids.length ≤ maxPointers) :
    TouchFrame Unit where
  action
  index
  pointers := ids.map fun id => (id, ())
  nonempty := by simpa using h
  size := by simpa using h'

/-- One finger on a widget and one on the pad, a cancel with both on the glass, and a
third finger down. -/
def fingers : List (Act Unit Unit) :=
  [.addClaim (), .frame (frameOf .down 0 [0] (by decide) (by decide)) (fun _ => true) fun _ => GestureRecognizer.scrolling,
    .frame (frameOf .down 1 [0, 1] (by decide) (by decide)) (fun _ => false) fun _ => GestureRecognizer.scrolling,
    .cancel fun _ => GestureRecognizer.scrolling,
    .frame (frameOf .down 2 [0, 1, 2] (by decide) (by decide)) (fun _ => false) fun _ => GestureRecognizer.scrolling]

theorem one_consumer_per_pointer_fingers :
    ∃ w, run step (World.new GestureRecognizer.plain true) fingers = some w ∧ w.unclaimed = [2] ∧
      w.gestures.down = 1 := by
  obtain ⟨w, hw⟩ : ∃ w, run step (World.new GestureRecognizer.plain true) fingers = some w := ⟨_, rfl⟩
  have hu : w.unclaimed = [2] := by
    cases hw
    rfl
  have hm : Meets step Known (World.new GestureRecognizer.plain true) fingers := by decide
  refine ⟨w, hw, hu, ?_⟩
  rw [(one_consumer_per_pointer GestureRecognizer.plain true fingers w hm hw).2, hu]
  rfl

/-- The finger on the widget goes up after the cancel: the gestures, which never saw
it, hear of its end and count it off for the finger that is down. -/
theorem stale_up_reaches_listener :
    ¬∀ (as : List (Act Unit Unit)) (w : World Unit Unit), run step (World.new GestureRecognizer.plain true) as = some w →
      (∃ has, run follow (fun _ => none) w.delivered = some has) ∧ w.gestures.down = w.unclaimed.length := by
  intro h
  have := (h (fingers ++ [.frame (frameOf .up 0 [0, 1, 2] (by decide) (by decide)) (fun _ => false)
    fun _ => GestureRecognizer.scrolling]) _ rfl).2
  revert this
  decide

end TouchRouter

end Vento.Control
