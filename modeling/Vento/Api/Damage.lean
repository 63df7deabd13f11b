import Mathlib.Algebra.Ring.Nat
import Mathlib.Data.List.Basic
import Mathlib.Data.List.Induction
import Mathlib.Data.List.Perm.Basic
import Vento.Lib.Table
/-!
# The damage of a frame

`Rect` and `Damage` of `api/src/events.rs`: the rectangles a frame has marked so far, merged
where their bounding box costs nothing and collapsed past a limit. Coordinates are `usize`,
of 64 bits; the sums wrap, as they do in a release build.

`Covers` is what a list of rectangles is for. However they are merged, what was covered stays
covered and what lay in a box still does: `keeps_add`. The areas only choose what is merged,
so nothing rests on whether they overflow.

They also choose what is left apart. Two rectangles that cross can have a bounding box bigger
than both together, and both are then kept: `TakesIn` is when an add leaves no such pair.
-/

namespace Vento.Api

/-- A rectangle of the desktop, in pixels. -/
structure Rect where
  x : Nat
  y : Nat
  width : Nat
  height : Nat
deriving DecidableEq, Repr

namespace Rect

def area (r : Rect) : Nat := r.width * r.height % 2 ^ 64

/-- The smallest rectangle holding both. -/
def union (a b : Rect) : Rect :=
  let x := min a.x b.x
  let y := min a.y b.y
  let right := max ((a.x + a.width) % 2 ^ 64) ((b.x + b.width) % 2 ^ 64)
  let bottom := max ((a.y + a.height) % 2 ^ 64) ((b.y + b.height) % 2 ^ 64)
  ⟨x, y, (right + 2 ^ 64 - x) % 2 ^ 64, (bottom + 2 ^ 64 - y) % 2 ^ 64⟩

/-- No pixel is in it. -/
def IsEmpty (r : Rect) : Prop := r.width = 0 ∨ r.height = 0

instance (r : Rect) : Decidable r.IsEmpty := inferInstanceAs (Decidable (_ ∨ _))

/-- Its edges are `usize` values. -/
def Fits (r : Rect) : Prop := r.x + r.width < 2 ^ 64 ∧ r.y + r.height < 2 ^ 64

instance (r : Rect) : Decidable r.Fits := inferInstanceAs (Decidable (_ ∧ _))

/-- `b` lies in `a`. -/
def Holds (a b : Rect) : Prop :=
  (a.x ≤ b.x ∧ b.x + b.width ≤ a.x + a.width) ∧ a.y ≤ b.y ∧ b.y + b.height ≤ a.y + a.height

instance (a b : Rect) : Decidable (a.Holds b) := inferInstanceAs (Decidable ((_ ∧ _) ∧ _ ∧ _))

theorem Holds.refl (a : Rect) : a.Holds a := ⟨⟨Nat.le_refl _, Nat.le_refl _⟩, Nat.le_refl _, Nat.le_refl _⟩

theorem Holds.trans {a b c : Rect} (hab : a.Holds b) (hbc : b.Holds c) : a.Holds c := by
  unfold Holds at *
  omega

/-- What holds a rectangle with pixels has some. -/
theorem Holds.not_isEmpty {a b : Rect} (h : a.Holds b) (hb : ¬b.IsEmpty) : ¬a.IsEmpty := by
  unfold Holds IsEmpty at *
  omega

/-- One side of `union`: from the lesser of two edges to the greater. -/
theorem union_side {x y w v : Nat} (hx : x + w < 2 ^ 64) (hy : y + v < 2 ^ 64) :
    min x y + (max ((x + w) % 2 ^ 64) ((y + v) % 2 ^ 64) + 2 ^ 64 - min x y) % 2 ^ 64 = max (x + w) (y + v) := by
  rw [Nat.mod_eq_of_lt hx, Nat.mod_eq_of_lt hy]
  have hle : min x y ≤ max (x + w) (y + v) := by omega
  have hlt : max (x + w) (y + v) - min x y < 2 ^ 64 := by omega
  rw [show max (x + w) (y + v) + 2 ^ 64 - min x y = max (x + w) (y + v) - min x y + 2 ^ 64 by omega,
    Nat.add_mod_right, Nat.mod_eq_of_lt hlt, Nat.add_sub_cancel' hle]

theorem union_right {a b : Rect} (ha : a.Fits) (hb : b.Fits) :
    (a.union b).x + (a.union b).width = max (a.x + a.width) (b.x + b.width) := union_side ha.1 hb.1

theorem union_bottom {a b : Rect} (ha : a.Fits) (hb : b.Fits) :
    (a.union b).y + (a.union b).height = max (a.y + a.height) (b.y + b.height) := union_side ha.2 hb.2

theorem union_x (a b : Rect) : (a.union b).x = min a.x b.x := rfl

theorem union_y (a b : Rect) : (a.union b).y = min a.y b.y := rfl

theorem Fits.union {a b : Rect} (ha : a.Fits) (hb : b.Fits) : (a.union b).Fits := by
  unfold Fits
  rw [union_right ha hb, union_bottom ha hb]
  exact ⟨Nat.max_lt.2 ⟨ha.1, hb.1⟩, Nat.max_lt.2 ⟨ha.2, hb.2⟩⟩

theorem union_holds_left {a b : Rect} (ha : a.Fits) (hb : b.Fits) : (a.union b).Holds a := by
  unfold Holds
  rw [union_right ha hb, union_bottom ha hb, union_x, union_y]
  omega

theorem union_holds_right {a b : Rect} (ha : a.Fits) (hb : b.Fits) : (a.union b).Holds b := by
  unfold Holds
  rw [union_right ha hb, union_bottom ha hb, union_x, union_y]
  omega

theorem holds_union {a b c : Rect} (ha : a.Fits) (hb : b.Fits) (hca : c.Holds a) (hcb : c.Holds b) :
    c.Holds (a.union b) := by
  unfold Holds at *
  rw [union_right ha hb, union_bottom ha hb, union_x, union_y]
  omega

end Rect

/-- Some rectangle of the list holds it. -/
def Covers (rects : List Rect) (r : Rect) : Prop := ∃ q ∈ rects, q.Holds r

theorem covers_of_mem {rects : List Rect} {r : Rect} (h : r ∈ rects) : Covers rects r := ⟨r, h, .refl r⟩

theorem Covers.trans {rects rects' : List Rect} {r : Rect} (hr : Covers rects r) (h : ∀ q ∈ rects, Covers rects' q) :
    Covers rects' r := by
  obtain ⟨q, hq, hqr⟩ := hr
  obtain ⟨p, hp, hpq⟩ := h q hq
  exact ⟨p, hp, hpq.trans hqr⟩

namespace Damage

/-- Past this many, the list collapses to their bounding box. -/
def LIMIT : Nat := 64

/-- `Vec::swap_remove`: what was at `i`, and the list with its last in that place. -/
def swapRemove (rects : List Rect) (i : Nat) : Option (Rect × List Rect) :=
  match rects[i]?, rects.getLast? with
  | some r, some last => some (r, (rects.set i last).dropLast)
  | _, _ => none

/-- The bounding box of the two is no bigger than both together. -/
def joins (rect r : Rect) : Bool := (r.union rect).area ≤ (r.area + rect.area) % 2 ^ 64

/-- The merges of `add`, each tried again with its result. A pass takes a rectangle out of the
list, so there are no more of them than it has. -/
def merge : Nat → List Rect → Rect → List Rect × Rect
  | 0, rects, rect => (rects, rect)
  | n + 1, rects, rect =>
    match (rects.findIdx? (joins rect)).bind (swapRemove rects) with
    | some (r, rects) => merge n rects (rect.union r)
    | none => (rects, rect)

/-- Mark `rect`. -/
def add (rects : List Rect) (rect : Rect) : List Rect :=
  if rect.width = 0 ∨ rect.height = 0 then rects
  else
    let (rects, rect) := merge rects.length rects rect
    if rects.length ≥ LIMIT then [rects.foldl Rect.union rect] else rects ++ [rect]

/-- Adds every rectangle in `more`. -/
def extend (rects more : List Rect) : List Rect := more.foldl add rects

/-! ## What a merge keeps -/

theorem swapRemove_perm {rects rest : List Rect} {r : Rect} {i : Nat} (h : swapRemove rects i = some (r, rest)) :
    (r :: rest).Perm rects := by
  unfold swapRemove at h
  split at h
  case h_2 => cases h
  case h_1 r' last hr hlast =>
    cases h
    obtain ⟨hi, rfl⟩ := List.getElem?_eq_some_iff.1 hr
    have hrest : Vento.Lib.swapRemove rects i = (rects.set i last).dropLast := by rw [Vento.Lib.swapRemove, hlast]
    exact hrest ▸ Vento.Lib.swapRemove_perm hi

theorem swapRemove_some {rects : List Rect} {i : Nat} (h : i < rects.length) : ∃ p, swapRemove rects i = some p := by
  have hne : rects ≠ [] := List.ne_nil_of_length_pos (by omega)
  unfold swapRemove
  rw [List.getElem?_eq_getElem h, List.getLast?_eq_some_getLast hne]
  exact ⟨_, rfl⟩

/-- The loop ends for want of a rectangle to merge, not of passes. -/
theorem merge_done {n : Nat} {rects : List Rect} (hn : rects.length ≤ n) (rect : Rect) :
    ∀ r ∈ (merge n rects rect).1, joins (merge n rects rect).2 r = false := by
  induction n generalizing rects rect with
  | zero =>
    intro r hr
    rw [List.eq_nil_of_length_eq_zero (Nat.le_zero.1 hn)] at hr
    cases hr
  | succ n ih =>
    rw [merge]
    cases hi : rects.findIdx? (joins rect) with
    | none => simpa using hi
    | some i =>
      obtain ⟨hlt, -⟩ := List.findIdx?_eq_some_iff_getElem.1 hi
      obtain ⟨⟨r, rest⟩, hrest⟩ := swapRemove_some hlt
      have hlen := (swapRemove_perm hrest).length_eq
      rw [List.length_cons] at hlen
      simp only [Option.bind_some, hrest]
      exact ih (by omega) _

/-- The list `rects'` is as good as `rects`: it covers each of them that is not empty, and lies in every
box that they lie in. -/
structure Keeps (rects rects' : List Rect) : Prop where
  fits : (∀ r ∈ rects, r.Fits) → ∀ r ∈ rects', r.Fits
  covers : (∀ r ∈ rects, r.Fits) → ∀ r ∈ rects, ¬r.IsEmpty → Covers rects' r
  holds : (∀ r ∈ rects, r.Fits) → ∀ box : Rect, (∀ r ∈ rects, box.Holds r) → ∀ r ∈ rects', box.Holds r

theorem Keeps.covered {rects rects' : List Rect} (h : Keeps rects rects') (hf : ∀ r ∈ rects, r.Fits) {r : Rect}
    (hr : Covers rects r) (hne : ¬r.IsEmpty) : Covers rects' r := by
  obtain ⟨q, hq, hqr⟩ := hr
  obtain ⟨p, hp, hpq⟩ := h.covers hf q hq (hqr.not_isEmpty hne)
  exact ⟨p, hp, hpq.trans hqr⟩

theorem Keeps.of_mem_iff {rects rects' : List Rect} (h : ∀ r, r ∈ rects' ↔ r ∈ rects) : Keeps rects rects' where
  fits hf r hr := hf r ((h r).1 hr)
  covers _ r hr _ := covers_of_mem ((h r).2 hr)
  holds _ _ hb r hr := hb r ((h r).1 hr)

theorem Keeps.trans {l₁ l₂ l₃ : List Rect} (h : Keeps l₁ l₂) (h' : Keeps l₂ l₃) : Keeps l₁ l₃ where
  fits hf := h'.fits (h.fits hf)
  covers hf r hr hne := h'.covered (h.fits hf) (h.covers hf r hr hne) hne
  holds hf box hb := h'.holds (h.fits hf) box (h.holds hf box hb)

theorem Keeps.append_left {rects rects' : List Rect} (h : Keeps rects rects') (l : List Rect) :
    Keeps (l ++ rects) (l ++ rects') where
  fits hf := by
    rw [List.forall_mem_append] at hf ⊢
    exact ⟨hf.1, h.fits hf.2⟩
  covers hf := by
    rw [List.forall_mem_append] at hf ⊢
    refine ⟨fun r hr _ => covers_of_mem (List.mem_append_left _ hr), fun r hr hne => ?_⟩
    obtain ⟨q, hq, hqr⟩ := h.covers hf.2 r hr hne
    exact ⟨q, List.mem_append_right _ hq, hqr⟩
  holds hf box hb := by
    rw [List.forall_mem_append] at hf hb ⊢
    exact ⟨hb.1, h.holds hf.2 box hb.2⟩

theorem keeps_union (a b : Rect) (rest : List Rect) : Keeps (a :: b :: rest) (a.union b :: rest) where
  fits hf := by
    simp only [List.forall_mem_cons] at hf ⊢
    exact ⟨hf.1.union hf.2.1, hf.2.2⟩
  covers hf := by
    simp only [List.forall_mem_cons] at hf ⊢
    refine ⟨fun _ => ?_, fun _ => ?_, fun r hr _ => ?_⟩
    · exact ⟨a.union b, List.mem_cons_self, Rect.union_holds_left hf.1 hf.2.1⟩
    · exact ⟨a.union b, List.mem_cons_self, Rect.union_holds_right hf.1 hf.2.1⟩
    · exact covers_of_mem (List.mem_cons_of_mem _ hr)
  holds hf box hb := by
    simp only [List.forall_mem_cons] at hf hb ⊢
    exact ⟨Rect.holds_union hf.1 hf.2.1 hb.1 hb.2.1, hb.2.2⟩

theorem keeps_merge (n : Nat) (rects : List Rect) (rect : Rect) :
    Keeps (rect :: rects) ((merge n rects rect).2 :: (merge n rects rect).1) := by
  induction n generalizing rects rect with
  | zero => exact .of_mem_iff fun _ => Iff.rfl
  | succ n ih =>
    rw [merge]
    split
    · next r rest h =>
      obtain ⟨i, -, hrest⟩ := Option.bind_eq_some_iff.1 h
      have hmem : ∀ q, q ∈ rect :: r :: rest ↔ q ∈ rect :: rects := fun q => ((swapRemove_perm hrest).cons rect).mem_iff
      exact (Keeps.of_mem_iff hmem).trans ((keeps_union rect r rest).trans (ih rest (rect.union r)))
    · exact .of_mem_iff fun _ => Iff.rfl

theorem keeps_foldl_union (rects : List Rect) (rect : Rect) : Keeps (rect :: rects) [rects.foldl Rect.union rect] := by
  induction rects generalizing rect with
  | nil => exact .of_mem_iff fun _ => Iff.rfl
  | cons r rects ih => exact (keeps_union rect r rects).trans (ih (rect.union r))

/-- What `Damage::add` is for: the rectangle is marked, and nothing marked before is lost. -/
theorem keeps_add (rects : List Rect) (rect : Rect) : Keeps (rect :: rects) (add rects rect) := by
  unfold add
  split
  · next hempty =>
    constructor
    · intro hf r hr
      exact hf r (List.mem_cons_of_mem _ hr)
    · intro _ r hr hne
      rcases List.mem_cons.1 hr with rfl | hr
      · exact absurd hempty hne
      · exact covers_of_mem hr
    · intro _ box hb r hr
      exact hb r (List.mem_cons_of_mem _ hr)
  · dsimp only
    refine (keeps_merge rects.length rects rect).trans ?_
    split
    · exact keeps_foldl_union _ _
    · exact .of_mem_iff fun q => by simp [or_comm]

theorem keeps_extend (rects more : List Rect) : Keeps (more ++ rects) (extend rects more) := by
  induction more generalizing rects with
  | nil => exact .of_mem_iff fun _ => Iff.rfl
  | cons r more ih =>
    have hmem : ∀ q, q ∈ more ++ r :: rects ↔ q ∈ r :: (more ++ rects) := fun q => List.perm_middle.mem_iff
    exact (Keeps.of_mem_iff hmem).trans (((keeps_add rects r).append_left more).trans (ih (add rects r)))

end Damage

/-! ## What is read twice -/

namespace Rect

/-- The pixel is in it. -/
def Has (r : Rect) (px py : Nat) : Prop := (r.x ≤ px ∧ px < r.x + r.width) ∧ r.y ≤ py ∧ py < r.y + r.height

instance (r : Rect) (px py : Nat) : Decidable (r.Has px py) := inferInstanceAs (Decidable ((_ ∧ _) ∧ _ ∧ _))

/-- No pixel is in both. -/
def Apart (a b : Rect) : Prop := ∀ px py, ¬(a.Has px py ∧ b.Has px py)

theorem Apart.symm {a b : Rect} (h : a.Apart b) : b.Apart a := fun px py hboth => h px py hboth.symm

end Rect

namespace Damage

/-- The merging of `rect` goes on until it meets none of the rectangles left, or leaves so many that they collapse. -/
inductive TakesIn : List Rect → Rect → Prop where
  | stop {rects : List Rect} {rect : Rect} (hnone : ∀ r ∈ rects, joins rect r = false)
      (hapart : (∀ r ∈ rects, rect.Apart r) ∨ LIMIT ≤ rects.length) : TakesIn rects rect
  | next {rects rest : List Rect} {rect r : Rect} {i : Nat} (hi : rects.findIdx? (joins rect) = some i)
      (hr : swapRemove rects i = some (r, rest)) (h : TakesIn rest (rect.union r)) : TakesIn rects rect

/-- `TakesIn` says of the merging, before it is done, what it leaves. -/
theorem takesIn_iff {n : Nat} {rects : List Rect} (hn : rects.length ≤ n) (rect : Rect) :
    TakesIn rects rect ↔
      (∀ r ∈ (merge n rects rect).1, (merge n rects rect).2.Apart r) ∨ LIMIT ≤ (merge n rects rect).1.length := by
  induction n generalizing rects rect with
  | zero =>
    have hnil : rects = [] := List.eq_nil_of_length_eq_zero (Nat.le_zero.1 hn)
    subst hnil
    refine iff_of_true (.stop ?_ (.inl ?_)) (.inl ?_) <;> exact fun r hr => nomatch hr
  | succ n ih =>
    rw [merge]
    cases hi : rects.findIdx? (joins rect) with
    | none =>
      have hnone : ∀ r ∈ rects, joins rect r = false := by simpa using hi
      constructor
      · intro h
        cases h with
        | stop _ hapart => exact hapart
        | next hi' => exact nomatch hi.symm.trans hi'
      · exact fun hapart => .stop hnone hapart
    | some i =>
      obtain ⟨hlt, hjoins, -⟩ := List.findIdx?_eq_some_iff_getElem.1 hi
      obtain ⟨⟨r, rest⟩, hrest⟩ := swapRemove_some hlt
      have hlen := (swapRemove_perm hrest).length_eq
      rw [List.length_cons] at hlen
      simp only [Option.bind_some, hrest]
      rw [← ih (by omega)]
      constructor
      · intro h
        cases h with
        | stop hnone => exact absurd hjoins (by simp [hnone _ (List.getElem_mem hlt)])
        | next hi' hr' h =>
          obtain rfl := Option.some.inj (hi.symm.trans hi')
          obtain ⟨rfl, rfl⟩ := Prod.mk.inj (Option.some.inj (hrest.symm.trans hr'))
          exact h
      · exact .next hi hrest

/-- What is left of the list is some of it. -/
theorem merge_subperm (n : Nat) (rects : List Rect) (rect : Rect) : (merge n rects rect).1.Subperm rects := by
  induction n generalizing rects rect with
  | zero => exact List.Subperm.refl _
  | succ n ih =>
    rw [merge]
    split
    · next r rest h =>
      obtain ⟨i, -, hrest⟩ := Option.bind_eq_some_iff.1 h
      have hsub : rest.Subperm rects := (List.sublist_cons_self r rest).subperm.trans (swapRemove_perm hrest).subperm
      exact (ih rest (rect.union r)).trans hsub
    · exact List.Subperm.refl _

theorem pairwise_merge {rects : List Rect} (h : rects.Pairwise Rect.Apart) (n : Nat) (rect : Rect) :
    (merge n rects rect).1.Pairwise Rect.Apart := by
  obtain ⟨l, hperm, hsub⟩ := merge_subperm n rects rect
  exact (hperm.pairwise_iff fun h => h.symm).1 (h.sublist hsub)

/-- One add leaves the rectangles apart just when its merging takes in whatever it meets. -/
theorem pairwise_add {rects : List Rect} (h : rects.Pairwise Rect.Apart) (rect : Rect) :
    (add rects rect).Pairwise Rect.Apart ↔ rect.IsEmpty ∨ TakesIn rects rect := by
  unfold add
  split
  · next hempty => exact iff_of_true h (.inl hempty)
  · next hne =>
    have hempty : ¬rect.IsEmpty := hne
    dsimp only
    rw [or_iff_right hempty, takesIn_iff (Nat.le_refl _)]
    split
    · next hmany => exact iff_of_true (List.pairwise_singleton _ _) (.inr hmany)
    · next hfew =>
      rw [List.pairwise_append, or_iff_left hfew]
      simp only [List.mem_singleton, forall_eq]
      constructor
      · exact fun hall r hr => (hall.2.2 r hr).symm
      · exact fun hapart => ⟨pairwise_merge h _ _, List.pairwise_singleton _ _, fun r hr => (hapart r hr).symm⟩

theorem length_add {rects : List Rect} (h : rects.length ≤ LIMIT) (rect : Rect) : (add rects rect).length ≤ LIMIT := by
  unfold add
  split
  · exact h
  · dsimp only
    split
    · rw [List.length_singleton]
      decide
    · next hfew =>
      rw [List.length_append, List.length_singleton]
      omega

theorem extend_append (rects more more' : List Rect) : extend rects (more ++ more') = extend (extend rects more) more' :=
  List.foldl_append

theorem length_extend (more : List Rect) : (extend [] more).length ≤ LIMIT := by
  induction more using List.reverseRecOn with
  | nil => exact Nat.zero_le _
  | append_singleton more rect ih =>
    rw [extend_append]
    exact length_add ih rect

/-- An empty rectangle changes nothing. -/
theorem extend_filter (rects more : List Rect) : extend rects (more.filter fun r => ¬r.IsEmpty) = extend rects more := by
  induction more generalizing rects with
  | nil => rfl
  | cons r more ih =>
    by_cases hr : r.IsEmpty
    · have hadd : add rects r = rects := if_pos hr
      rw [List.filter_cons_of_neg (by simpa using hr), ih, extend, extend, List.foldl_cons, hadd]
    · rw [List.filter_cons_of_pos (by simpa using hr)]
      exact ih (add rects r)

/-- The rectangles of every frame so far are apart just when each add took in what it met. -/
theorem pairwise_extend (more : List Rect) :
    (∀ pre, pre <+: more → (extend [] pre).Pairwise Rect.Apart) ↔
      ∀ pre rect, pre ++ [rect] <+: more → rect.IsEmpty ∨ TakesIn (extend [] pre) rect := by
  constructor
  · intro h pre rect hpre
    have hbefore := h pre ((List.prefix_append pre [rect]).trans hpre)
    have hafter := h _ hpre
    rw [extend_append] at hafter
    exact (pairwise_add hbefore rect).1 hafter
  · intro h pre hpre
    induction pre using List.reverseRecOn with
    | nil => exact List.Pairwise.nil
    | append_singleton pre rect ih =>
      rw [extend_append]
      exact (pairwise_add (ih ((List.prefix_append pre [rect]).trans hpre)) rect).2 (h pre rect hpre)

end Damage

end Vento.Api
