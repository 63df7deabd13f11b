import Mathlib.Data.List.Range
import Mathlib.Data.List.Perm.Basic
/-!
# What becomes of what is written

Things of a type are written to a tape one after another, and leave it at its front:
they are heard, or they are lost. Where some are lost, those that follow may be blended
with them. A `Piece` is one of the things written, by its place among them, with the
places of those that were blended into it and what it has become.

`Accounted` is what holds of every tape: each thing written is lost, heard or kept, once;
those heard and kept are in the order written; and each is what was written, or what
blends have made of it.
-/

namespace Vento.Lib

structure Piece (β : Type) where
  place : Nat
  joined : List Nat
  value : β

structure Tape (β : Type) where
  written : List β
  lost : List (Piece β)
  heard : List (Piece β)
  kept : List (Piece β)

namespace Tape

variable {β : Type}

def new : Tape β := ⟨[], [], [], []⟩

def places (ps : List (Piece β)) : List Nat := ps.map Piece.place

/-- Everything that was written, wherever it is now. -/
def all (t : Tape β) : List (Piece β) := t.lost ++ (t.heard ++ t.kept)

def pieces (start : Nat) (xs : List β) : List (Piece β) := xs.mapIdx fun i x => ⟨start + i, [], x⟩

def append (t : Tape β) (xs : List β) : Tape β :=
  { t with written := t.written ++ xs, kept := t.kept ++ pieces t.written.length xs }

/-- The first `n` are heard. -/
def take (t : Tape β) (n : Nat) : Tape β := { t with heard := t.heard ++ t.kept.take n, kept := t.kept.drop n }

/-- `old`, which is lost, blended into a piece. -/
def join (w : β) (old : Piece β) (p : Piece β) : Piece β := ⟨p.place, old.place :: p.joined, w⟩

/-- The first of `olds` blended into the first of `ps`, and so on. -/
def joinAll (blend : Nat → β → β → β) (olds ps : List (Piece β)) : List (Piece β) :=
  ps.mapIdx fun i p => match olds[i]? with
    | some old => join (blend i old.value p.value) old p
    | none => p

/-- The first `n` are lost, and the first `m` of them blended into those that follow. -/
def skip (t : Tape β) (n m : Nat) (blend : Nat → β → β → β) : Tape β :=
  { t with lost := t.lost ++ t.kept.take n, kept := joinAll blend (t.kept.take m) (t.kept.drop n) }

/-- What the thing at a place has become: what was written, or something between what it
had become and what an earlier one that is lost had. -/
inductive Made (between : β → β → β → Prop) (written : List β) (lost : List Nat) : Nat → List Nat → β → Prop
  | whole {i : Nat} {v : β} : written[i]? = some v → Made between written lost i [] v
  | blended {i j : Nat} {is js : List Nat} {u v w : β} : Made between written lost i is v →
    Made between written lost j js u → j ∈ lost → j < i → between u v w → Made between written lost i (j :: is) w

structure Accounted (between : β → β → β → Prop) (t : Tape β) : Prop where
  once : (places t.all).Perm (List.range t.written.length)
  order : (places (t.heard ++ t.kept)).Pairwise (· < ·)
  made : ∀ p ∈ t.all, Made between t.written (places t.lost) p.place p.joined p.value

section

variable {between : β → β → β → Prop} {t : Tape β}

theorem Made.mono {written written' : List β} {lost lost' : List Nat} (hw : written <+: written') (hl : lost ⊆ lost') {i : Nat}
    {js : List Nat} {v : β} (h : Made between written lost i js v) : Made between written' lost' i js v := by
  induction h with
  | whole h =>
    obtain ⟨post, rfl⟩ := hw
    refine .whole ?_
    rw [List.getElem?_append_left (List.getElem?_eq_some_iff.1 h).1]
    exact h
  | blended _ _ hj hlt hb ih₁ ih₂ => exact .blended ih₁ ih₂ (hl hj) hlt hb

/-- What nothing was blended into is what was written. -/
theorem Made.whole_of_nil {written : List β} {lost : List Nat} {i : Nat} {v : β} (h : Made between written lost i [] v) :
    written[i]? = some v := by
  cases h with
  | whole h => exact h

theorem accounted_new : Accounted between (new : Tape β) where
  once := List.Perm.nil
  order := List.Pairwise.nil
  made := nofun

theorem places_append (ps qs : List (Piece β)) : places (ps ++ qs) = places ps ++ places qs := List.map_append

theorem places_pieces (start : Nat) (xs : List β) : places (pieces start xs) = (List.range xs.length).map (start + ·) := by
  apply List.ext_getElem
  · simp [places, pieces]
  · intro i h h'
    simp [places, pieces]

theorem Accounted.lt (h : Accounted between t) {p : Piece β} (hp : p ∈ t.all) : p.place < t.written.length := by
  have := h.once.subset (List.mem_map_of_mem hp)
  simpa using this

/-- As many are written as are lost, kept and heard. -/
theorem Accounted.count (h : Accounted between t) : t.written.length = t.lost.length + t.kept.length + t.heard.length := by
  have := h.once.length_eq
  simp only [places, all, List.length_map, List.length_append, List.length_range] at this
  omega

theorem Accounted.append (h : Accounted between t) (xs : List β) : Accounted between (t.append xs) := by
  have hall : (t.append xs).all = t.all ++ pieces t.written.length xs := by
    simp [all, Tape.append]
  refine ⟨?_, ?_, ?_⟩
  · rw [hall, places_append, places_pieces]
    show List.Perm _ (List.range (t.written ++ xs).length)
    rw [List.length_append, List.range_add]
    exact h.once.append_right _
  · show List.Pairwise _ (places (t.heard ++ (t.kept ++ pieces t.written.length xs)))
    rw [← List.append_assoc, places_append, places_pieces]
    refine List.pairwise_append.2 ⟨h.order, ?_, ?_⟩
    · refine List.pairwise_map.2 (List.pairwise_lt_range.imp fun hlt => ?_)
      exact Nat.add_lt_add_left hlt _
    · intro a ha b hb
      obtain ⟨p, hp, rfl⟩ := List.mem_map.1 ha
      obtain ⟨k, -, rfl⟩ := List.mem_map.1 hb
      have := h.lt (List.mem_append_right t.lost hp)
      exact Nat.lt_of_lt_of_le this (Nat.le_add_right _ _)
  · intro p hp
    rw [hall] at hp
    rcases List.mem_append.1 hp with hp | hp
    · exact (h.made p hp).mono (List.prefix_append _ _) (List.Subset.refl _)
    · obtain ⟨i, hi, rfl⟩ := List.mem_mapIdx.1 hp
      refine .whole ?_
      show (t.written ++ xs)[t.written.length + i]? = some xs[i]
      rw [List.getElem?_append_right (Nat.le_add_right _ _), Nat.add_sub_cancel_left, List.getElem?_eq_getElem hi]

theorem Accounted.take (h : Accounted between t) (n : Nat) : Accounted between (t.take n) := by
  have hsame : t.heard ++ t.kept.take n ++ t.kept.drop n = t.heard ++ t.kept := by
    rw [List.append_assoc, List.take_append_drop]
  have hall : (t.take n).all = t.all := congrArg (t.lost ++ ·) hsame
  refine ⟨?_, ?_, ?_⟩
  · rw [hall]
    exact h.once
  · show List.Pairwise _ (places (t.heard ++ t.kept.take n ++ t.kept.drop n))
    rw [hsame]
    exact h.order
  · rw [hall]
    exact h.made

theorem places_joinAll (blend : Nat → β → β → β) (olds ps : List (Piece β)) : places (joinAll blend olds ps) = places ps := by
  apply List.ext_getElem
  · simp [places, joinAll]
  · intro i h h'
    simp only [places, joinAll, List.getElem_map, List.getElem_mapIdx]
    split <;> rfl

/-- What blends make of the pieces that follow those lost. -/
theorem Accounted.skip (h : Accounted between t) {n m : Nat} (hm : m ≤ n) {blend : Nat → β → β → β}
    (hb : ∀ i u v, i < m → u ∈ t.kept → v ∈ t.kept → between u.value v.value (blend i u.value v.value)) :
    Accounted between (t.skip n m blend) := by
  have hplaces : places (t.skip n m blend).all = places t.lost ++ (places (t.kept.take n) ++ (places t.heard ++ places (t.kept.drop n))) := by
    simp only [all, Tape.skip, places_append, places_joinAll, List.append_assoc]
  have hkept : places (t.kept.take n) ++ places (t.kept.drop n) = places t.kept := by
    rw [← places_append, List.take_append_drop]
  have horder := h.order
  rw [places_append, ← hkept] at horder
  refine ⟨?_, ?_, ?_⟩
  · rw [hplaces]
    refine List.Perm.trans ?_ h.once
    rw [all, places_append, places_append, ← hkept]
    refine List.Perm.append_left _ ?_
    rw [← List.append_assoc, ← List.append_assoc]
    exact List.perm_append_comm.append_right _
  · show List.Pairwise _ (places (t.heard ++ joinAll blend (t.kept.take m) (t.kept.drop n)))
    rw [places_append, places_joinAll]
    exact horder.sublist ((List.sublist_append_right _ _).append_left _)
  · have hlost : places t.lost ⊆ places (t.lost ++ t.kept.take n) := by
      rw [places_append]
      exact List.subset_append_left _ _
    have hold : ∀ p ∈ t.all, Made between t.written (places (t.lost ++ t.kept.take n)) p.place p.joined p.value :=
      fun p hp => (h.made p hp).mono (List.prefix_refl _) hlost
    have hmem : ∀ p ∈ t.kept, p ∈ t.all := fun p hp => List.mem_append_right _ (List.mem_append_right _ hp)
    intro p hp
    have hp : p ∈ (t.lost ++ t.kept.take n) ++ (t.heard ++ joinAll blend (t.kept.take m) (t.kept.drop n)) := hp
    rcases List.mem_append.1 hp with hp | hp
    · rcases List.mem_append.1 hp with hp | hp
      · exact hold p (List.mem_append_left _ hp)
      · exact hold p (hmem p (List.mem_of_mem_take hp))
    · rcases List.mem_append.1 hp with hp | hp
      · exact hold p (List.mem_append_right _ (List.mem_append_left _ hp))
      · obtain ⟨i, hi, rfl⟩ := List.mem_mapIdx.1 hp
        have hdrop : (t.kept.drop n)[i] ∈ t.kept := List.mem_of_mem_drop (List.getElem_mem hi)
        split
        · rename_i old ho
          have him : i < m := by
            have := (List.getElem?_eq_some_iff.1 ho).1
            rw [List.length_take] at this
            omega
          have hotake : old ∈ t.kept.take m := List.mem_of_getElem? ho
          have hotake' : old ∈ t.kept.take n := (List.take_sublist_take_left hm).subset hotake
          have hlt : old.place < (t.kept.drop n)[i].place :=
            (List.pairwise_append.1 (List.pairwise_append.1 horder).2.1).2.2 _ (List.mem_map_of_mem hotake') _
              (List.mem_map_of_mem (List.getElem_mem hi))
          exact .blended (hold _ (hmem _ hdrop)) (hold old (hmem old (List.mem_of_mem_take hotake)))
            (List.mem_map_of_mem (List.mem_append_right t.lost hotake')) hlt
            (hb i old _ him (List.mem_of_mem_take hotake) hdrop)
        · exact hold _ (hmem _ hdrop)

end

end Tape

end Vento.Lib
