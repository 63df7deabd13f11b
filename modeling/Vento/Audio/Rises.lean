import Mathlib.Data.List.Pairwise
import Vento.Audio.Rhythm
/-!
# The buckets against every write

What the buckets of `rhythm.rs` keep of a window, against a log that keeps the `d` of
every write in it: `naive` is the largest rise of the log, over all pairs of writes of
one run. The rise worked out from the buckets is never less; a bucket that outlived a
restart may remember a rise against a write that has left the window, so it is the same
where no restart fell inside the window.
-/

namespace Vento.Audio

open Vento.Lib Duration

namespace Rhythm

/-! ## Rises across summaries -/

section

variable {items : List (UInt32 × Spread)} {a b : UInt32 × Spread}

/-- What the scan has found so far only grows. -/
theorem le_scan (x : Int × Option (UInt32 × Int)) (b : UInt32 × Spread) : x.1 ≤ (scan x b).1 ∧ b.2.rise ≤ (scan x b).1 := by
  unfold scan
  split
  · split
    · dsimp only
      exact ⟨by omega, by omega⟩
    · exact ⟨Int.le_max_left _ _, Int.le_max_right _ _⟩
  · exact ⟨Int.le_max_left _ _, Int.le_max_right _ _⟩

theorem le_foldl_scan (x : Int × Option (UInt32 × Int)) (items : List (UInt32 × Spread)) :
    x.1 ≤ (items.foldl scan x).1 := by
  induction items generalizing x with
  | nil => exact Int.le_refl _
  | cons b items ih => exact Int.le_trans (le_scan x b).1 (ih (scan x b))

theorem rise_le_foldl_scan (x : Int × Option (UInt32 × Int)) (h : a ∈ items) : a.2.rise ≤ (items.foldl scan x).1 := by
  obtain ⟨pre, post, rfl⟩ := List.append_of_mem h
  rw [List.foldl_append, List.foldl_cons]
  exact Int.le_trans (le_scan _ a).2 (le_foldl_scan _ post)

/-- The scan's least `d` is that of `run`, and is no more than `d`. -/
def Least (x : Int × Option (UInt32 × Int)) (run : UInt32) (d : Int) : Prop := ∃ least, x.2 = some (run, least) ∧ least ≤ d

theorem scan_least (x : Int × Option (UInt32 × Int)) (a : UInt32 × Spread) : Least (scan x a) a.1 a.2.lo := by
  unfold scan Least
  split
  · split
    · rename_i h
      exact ⟨_, by rw [h], Int.min_le_right _ _⟩
    · exact ⟨_, rfl, Int.le_refl _⟩
  · exact ⟨_, rfl, Int.le_refl _⟩

theorem scan_keeps_least {x : Int × Option (UInt32 × Int)} {run : UInt32} {d : Int} (h : Least x run d) (hb : b.1 = run) :
    Least (scan x b) run d ∧ b.2.hi - d ≤ (scan x b).1 := by
  obtain ⟨least, hx, hle⟩ := h
  obtain ⟨v, o⟩ := x
  cases hx
  simp only [scan, hb, if_true]
  exact ⟨⟨_, rfl, by omega⟩, by omega⟩

theorem foldl_scan_keeps_least {x : Int × Option (UInt32 × Int)} {run : UInt32} {d : Int} (h : Least x run d)
    (hm : ∀ z ∈ items, z.1 = run) : Least (items.foldl scan x) run d := by
  induction items generalizing x with
  | nil => exact h
  | cons z items ih =>
    exact ih (scan_keeps_least h (hm z List.mem_cons_self)).1 fun z' h' => hm z' (List.mem_cons_of_mem z h')

/-- From the least of one summary to the most of a later one, with only the same run
between them. -/
theorem across_le_foldl_scan {pre mid post : List (UInt32 × Spread)} (x : Int × Option (UInt32 × Int)) (hb : b.1 = a.1)
    (hm : ∀ z ∈ mid, z.1 = a.1) :
    b.2.hi - a.2.lo ≤ ((pre ++ a :: (mid ++ b :: post)).foldl scan x).1 := by
  rw [List.foldl_append, List.foldl_cons, List.foldl_append, List.foldl_cons]
  refine Int.le_trans ?_ (le_foldl_scan _ post)
  exact (scan_keeps_least (foldl_scan_keeps_least (scan_least _ a) hm) hb).2

/-- Nothing that bounds the rises of the summaries and those between any two of them is
passed. -/
theorem foldl_scan_le {v : Int} (x : Int × Option (UInt32 × Int)) (hx : x.1 ≤ v) (hr : ∀ z ∈ items, z.2.rise ≤ v)
    (hl : ∀ run least, x.2 = some (run, least) → ∀ z ∈ items, z.2.hi - least ≤ v)
    (hp : items.Pairwise fun y z => z.2.hi - y.2.lo ≤ v) : (items.foldl scan x).1 ≤ v := by
  induction items generalizing x with
  | nil => exact hx
  | cons b items ih =>
    obtain ⟨hb, hp⟩ := List.pairwise_cons.1 hp
    have hrise := hr b List.mem_cons_self
    refine ih (scan x b) ?_ (fun z h => hr z (List.mem_cons_of_mem b h)) ?_ hp
    · unfold scan
      split
      · rename_i run least h
        have := hl run least h b List.mem_cons_self
        split
        · exact Int.max_le.2 ⟨Int.max_le.2 ⟨hx, hrise⟩, this⟩
        · exact Int.max_le.2 ⟨hx, hrise⟩
      · exact Int.max_le.2 ⟨hx, hrise⟩
    · intro run least h z hz
      have hbz := hb z hz
      unfold scan at h
      split at h
      · rename_i run' least' hx'
        have := hl run' least' hx' z (List.mem_cons_of_mem b hz)
        split at h
        · cases h
          omega
        · cases h
          exact hbz
      · cases h
        exact hbz

end

/-! ## The log -/

/-- A write's `d` and the run that it is measured in, its frames, a burst's being none,
and how much had landed at once with it. -/
structure Mark where
  run : Nat
  d : Int
  size : Nat
  group : Nat
deriving DecidableEq, Repr

/-- The largest rise from an earlier mark to a later one of the same run, none being
less than nothing. -/
def naive : List Mark → Int
  | [] => 0
  | m :: ms => ms.foldl (fun v m' => if m'.run = m.run then max v (m'.d - m.d) else v) (naive ms)

/-- Every write of the window in the bucket that it fell in, the oldest bucket first.
`begun` counts the buckets begun since the last restart, all of them before the first. -/
structure Log where
  older : List (List Mark)
  current : List Mark
  started : Nat
  begun : Nat
  run : Nat
  origin : Option Nat
  frames : Nat
  last : Option Nat
  group : Nat

namespace Log

def new : Log where
  older := List.replicate (bucketCount - 1) []
  current := []
  started := 0
  begun := bucketCount
  run := 0
  origin := none
  frames := 0
  last := none
  group := 0

def live (g : Log) : List Mark := (g.older ++ [g.current]).flatten

def shift (g : Log) : Log :=
  { g with older := (g.older ++ [g.current]).tail, current := [], begun := g.begun + 1 }

def beginAt (g : Log) (started : Nat) : Log := { g with started }

def advance (g : Log) (t : Nat) : Log :=
  let n := steps g.started t
  beginAt (shift^[min n bucketCount] g) (g.started + bucketLen * n)

/-- The `d` is the arrival less where the write's first frame falls in its run. -/
def record (format : Format) (g : Log) (t frames : Nat) (burst : Bool) : Log :=
  let origin := g.origin.getD t
  let d := microsInt (t - origin) - microsInt (format.duration g.frames)
  let size := if burst then 0 else frames
  let group := if g.last.any fun last => t - last ≤ together then g.group + size else size
  { g with
    origin := some origin
    frames := g.frames + frames
    last := some t
    group
    current := g.current ++ [⟨g.run, d, size, group⟩] }

def wrote (format : Format) (g : Log) (t frames : Nat) (burst : Bool) : Log := (g.advance t).record format t frames burst

def restart (g : Log) : Log := { g with run := g.run + 1, origin := none, frames := 0, last := none, group := 0, begun := 0 }

/-- No restart fell inside the window. -/
def Whole (g : Log) : Prop := bucketCount ≤ g.begun

instance (g : Log) : Decidable g.Whole := inferInstanceAs (Decidable (_ ≤ _))

/-- What the writes of the window ask for: the largest of them and the largest rise,
or the most that landed at once, up to the cap. -/
def hold (format : Format) (g : Log) : Nat :=
  let rise := min (format.frames (micros (naive g.live).toNat)) (format.frames most)
  min (max (largest (g.live.map Mark.group)) (largest (g.live.map Mark.size) + rise)) (format.frames most)

end Log

inductive Act where
  | wrote (t frames : Nat) (burst : Bool)
  | lateBy (t : Nat)
  | restart
deriving DecidableEq, Repr

def step (r : Rhythm) : Act → Option Rhythm
  | .wrote t frames burst => some (r.wrote t frames burst)
  | .lateBy t => some (r.lateBy t).1
  | .restart => some r.restart

def logStep (format : Format) (g : Log) : Act → Option Log
  | .wrote t frames burst => some (g.wrote format t frames burst)
  | .lateBy t => some (g.advance t)
  | .restart => some g.restart

/-- The least bound of the rises. -/
theorem naive_le_iff {ms : List Mark} {v : Int} :
    naive ms ≤ v ↔ 0 ≤ v ∧ ms.Pairwise fun m m' => m.run = m'.run → m'.d - m.d ≤ v := by
  induction ms with
  | nil => simp [naive]
  | cons m ms ih =>
    have go : ∀ (l : List Mark) (w : Int),
        l.foldl (fun v m' => if m'.run = m.run then max v (m'.d - m.d) else v) w ≤ v ↔
          w ≤ v ∧ ∀ m' ∈ l, m.run = m'.run → m'.d - m.d ≤ v := by
      intro l
      induction l with
      | nil => simp
      | cons m' l ih =>
        intro w
        rw [List.foldl_cons, ih, List.forall_mem_cons]
        by_cases hr : m'.run = m.run
        · rw [if_pos hr, Int.max_le]
          simp only [hr, forall_const, and_assoc]
        · rw [if_neg hr]
          simp only [Ne.symm hr, false_implies, true_and]
    rw [naive, go, ih, List.pairwise_cons, and_assoc]
    tauto

theorem naive_nonneg (ms : List Mark) : 0 ≤ naive ms := (naive_le_iff.1 (Int.le_refl (naive ms))).1

theorem rise_le_naive (ms : List Mark) : ms.Pairwise fun m m' => m.run = m'.run → m'.d - m.d ≤ naive ms :=
  (naive_le_iff.1 (Int.le_refl (naive ms))).2

theorem largest_le_iff {l : List Nat} {v : Nat} : largest l ≤ v ↔ ∀ a ∈ l, a ≤ v := by
  have go : ∀ (l : List Nat) (w : Nat), l.foldl max w ≤ v ↔ w ≤ v ∧ ∀ a ∈ l, a ≤ v := by
    intro l
    induction l with
    | nil => simp
    | cons a l ih =>
      intro w
      rw [List.foldl_cons, ih, Nat.max_le, List.forall_mem_cons, and_assoc]
  rw [largest, go]
  simp

theorem le_largest {l : List Nat} {a : Nat} (h : a ∈ l) : a ≤ largest l := largest_le_iff.1 (Nat.le_refl _) a h

theorem largest_snoc (l : List Nat) (a : Nat) : largest (l ++ [a]) = max (largest l) a := by
  simp [largest]

/-! ## What the buckets keep of the log -/

abbrev Slot := Bucket × List Mark

/-- A bucket's summary of its marks: of the run that wrote in it last the least and the
most `d`, and of every run a rise that none of its own passes. -/
structure Sums (x : Slot) : Prop where
  used : x.1.used = !x.2.isEmpty
  last : ∀ m, x.2.getLast? = some m → x.1.run = UInt32.ofNat m.run ∧
    ∀ m' ∈ x.2, m'.run = m.run → x.1.each.lo ≤ m'.d ∧ m'.d ≤ x.1.each.hi
  nonneg : 0 ≤ x.1.each.rise
  rise : x.2.Pairwise fun m m' => m.run = m'.run → m'.d - m.d ≤ x.1.each.rise
  write : x.1.write = largest (x.2.map Mark.size)
  group : x.1.group = largest (x.2.map Mark.group)

/-- The rises from an earlier bucket to this one, of runs that have ended in it. -/
def Saved (y x : Slot) : Prop :=
  ∀ i ∈ y.2, ∀ j ∈ x.2, i.run = j.run → (∀ m, x.2.getLast? = some m → m.run ≠ j.run) → j.d - i.d ≤ x.1.each.rise

/-- A bucket begun after the last restart keeps no more than its marks show. -/
structure Exact (run : Nat) (x : Slot) : Prop where
  runs : ∀ m ∈ x.2, m.run = run
  lo : x.2 ≠ [] → ∃ m ∈ x.2, m.d = x.1.each.lo
  hi : x.2 ≠ [] → ∃ m ∈ x.2, m.d = x.1.each.hi
  rise : x.1.each.rise ≤ naive x.2

/-- The buckets before the newest, and the newest, against their marks. -/
structure Fits (older : List Slot) (current : Slot) (run begun : Nat) : Prop where
  sums : ∀ x ∈ older ++ [current], Sums x
  saved : (older ++ [current]).Pairwise Saved
  ended : (∀ m, current.2.getLast? = some m → m.run ≠ run) →
    ∀ y ∈ older, ∀ i ∈ y.2, ∀ j ∈ current.2, i.run = j.run → j.d - i.d ≤ current.1.each.rise
  runs : ((older ++ [current]).map Prod.snd).flatten.Pairwise fun m m' => m.run ≤ m'.run
  runs_le : ∀ m ∈ ((older ++ [current]).map Prod.snd).flatten, m.run ≤ run
  exact : ∀ x ∈ (older ++ [current]).drop (older.length + 1 - begun), Exact run x

namespace Fits

variable {older : List Slot} {current : Slot} {run begun : Nat}

theorem sums_default : Sums (Bucket.default, []) where
  used := rfl
  last := nofun
  nonneg := Int.le_refl 0
  rise := List.Pairwise.nil
  write := rfl
  group := rfl

theorem exact_default (run : Nat) : Exact run (Bucket.default, []) where
  runs := nofun
  lo h := absurd rfl h
  hi h := absurd rfl h
  rise := Int.le_refl 0

/-- The oldest bucket goes and an empty one comes. -/
theorem shift (h : Fits older current run begun) :
    Fits (older ++ [current]).tail (Bucket.default, []) run (begun + 1) := by
  have hsub : (older ++ [current]).tail ⊆ older ++ [current] := (List.tail_sublist _).subset
  have hflat : (((older ++ [current]).tail ++ [(Bucket.default, [])]).map Prod.snd).flatten.Sublist
      ((older ++ [current]).map Prod.snd).flatten := by
    rw [List.map_append, List.flatten_append]
    cases older ++ [current] with
    | nil => simp
    | cons x l => simp
  refine ⟨fun x hx => ?_, ?_, fun _ y _ i _ j hj => (nomatch hj), h.runs.sublist hflat,
    fun m hm => h.runs_le m (hflat.subset hm), fun x hx => ?_⟩
  · rcases List.mem_append.1 hx with hx | hx
    · exact h.sums x (hsub hx)
    · rw [List.mem_singleton.1 hx]
      exact sums_default
  · refine List.pairwise_append.2 ⟨h.saved.sublist (List.tail_sublist _), List.pairwise_singleton _ _, ?_⟩
    intro y _ x hx i _ j hj
    rw [List.mem_singleton.1 hx] at hj
    cases hj
  · have hlen : (older ++ [current]).tail.length = older.length := by simp
    rw [hlen, List.drop_append, List.drop_tail] at hx
    rcases List.mem_append.1 hx with hx | hx
    · refine h.exact x (List.drop_subset_drop_left _ ?_ hx)
      omega
    · rw [List.mem_singleton.1 (List.drop_subset _ _ hx)]
      exact exact_default run

/-- The last mark of the newest bucket is of the run under way if any mark of it is. -/
theorem last_run (h : Fits older current run begun) {m : Mark} (hm : m ∈ current.2) (hr : m.run = run) :
    ∃ l, current.2.getLast? = some l ∧ l.run = run := by
  cases hl : current.2.getLast? with
  | none => simp [List.getLast?_eq_none_iff.1 hl] at hm
  | some l =>
    refine ⟨l, rfl, ?_⟩
    obtain ⟨ms, hms⟩ := List.getLast?_eq_some_iff.1 hl
    have hle : l.run ≤ run := h.runs_le l (by simp [hms])
    have hge : m.run ≤ l.run := by
      have hp : current.2.Pairwise fun m m' => m.run ≤ m'.run := by
        have := h.runs
        simp only [List.map_append, List.flatten_append, List.pairwise_append] at this
        simpa using this.2.1
      rw [hms] at hm hp
      rcases List.mem_append.1 hm with hm | hm
      · exact (List.pairwise_append.1 hp).2.2 m hm l List.mem_cons_self
      · rw [List.mem_singleton.1 hm]
    omega

theorem naive_append (ms : List Mark) (m : Mark) : naive ms ≤ naive (ms ++ [m]) :=
  naive_le_iff.2 ⟨naive_nonneg _, (rise_le_naive (ms ++ [m])).sublist (List.sublist_append_left ms [m])⟩

/-- What a write at `d` makes of a bucket's spread. -/
def noted (b : Bucket) (id : UInt32) (d : Int) : Spread :=
  (if !b.used || b.run ≠ id then Spread.fromRise d b.each.rise else b.each).add d

theorem noted_bounds (b : Bucket) (id : UInt32) (d : Int) :
    (noted b id d).lo ≤ d ∧ d ≤ (noted b id d).hi ∧ b.each.rise ≤ (noted b id d).rise := by
  unfold noted
  split
  · exact ⟨Int.min_le_right _ _, Int.le_max_right _ _, Int.le_max_left _ _⟩
  · exact ⟨Int.min_le_right _ _, Int.le_max_right _ _, Int.le_max_left _ _⟩

/-- A mark of the run under way finds its bucket measuring the run. -/
theorem noted_same {b : Bucket} {ms : List Mark} (h : Fits older (b, ms) run begun) {m : Mark} (hm : m ∈ ms)
    (hr : m.run = run) (d : Int) : noted b (UInt32.ofNat run) d = b.each.add d := by
  have hs := h.sums (b, ms) (by simp)
  obtain ⟨l, hl, hlr⟩ := h.last_run hm hr
  have hu : b.used = true := by
    have hne : ms.isEmpty = false := by
      cases ms with
      | nil => cases hm
      | cons _ _ => rfl
    exact hs.used.trans (by rw [hne]; rfl)
  have hid : b.run = UInt32.ofNat run := hlr ▸ (hs.last l hl).1
  simp [noted, hu, hid]

/-- What a write that left the mark `m` makes of the newest bucket. -/
structure Noted (b b' : Bucket) (m : Mark) : Prop where
  used : b'.used = true
  run : b'.run = UInt32.ofNat m.run
  each : b'.each = noted b (UInt32.ofNat m.run) m.d
  write : b'.write = max b.write m.size
  group : b'.group = max b.group m.group

variable {b b' : Bucket} {ms : List Mark} {m : Mark}

theorem wrote_sums (h : Fits older (b, ms) m.run begun) (hn : Noted b b' m) : Sums (b', ms ++ [m]) := by
  have hs := h.sums (b, ms) (by simp)
  obtain ⟨hlo, hhi, hrise⟩ := noted_bounds b (UInt32.ofNat m.run) m.d
  -- a mark of the run before this one
  have hold : ∀ m' ∈ ms, m'.run = m.run → b.each.lo ≤ m'.d ∧ m'.d ≤ b.each.hi ∧
      noted b (UInt32.ofNat m.run) m.d = b.each.add m.d := by
    intro m' hm' hr
    obtain ⟨l, hl, hlr⟩ := h.last_run hm' hr
    have := (hs.last l hl).2 m' hm' (hr.trans hlr.symm)
    exact ⟨this.1, this.2, h.noted_same hm' hr m.d⟩
  refine ⟨by simp [hn.used], fun l hl => ?_, ?_, ?_, ?_, ?_⟩
  · obtain rfl : m = l := by simpa using hl
    refine ⟨hn.run, fun m' hm' hr => ?_⟩
    simp only [hn.each]
    rcases List.mem_append.1 hm' with hm' | hm'
    · obtain ⟨h1, h2, h3⟩ := hold m' hm' hr
      rw [h3]
      exact ⟨Int.le_trans (Int.min_le_left _ _) h1, Int.le_trans h2 (Int.le_max_left _ _)⟩
    · rw [List.mem_singleton.1 hm']
      exact ⟨hlo, hhi⟩
  · simp only [hn.each]
    exact Int.le_trans hs.nonneg hrise
  · simp only [hn.each]
    refine List.pairwise_append.2 ⟨?_, List.pairwise_singleton _ _, ?_⟩
    · exact hs.rise.imp fun hp hr => Int.le_trans (hp hr) hrise
    · intro m' hm' l hl hr
      rw [List.mem_singleton.1 hl] at hr ⊢
      obtain ⟨h1, -, h3⟩ := hold m' hm' hr
      rw [h3]
      refine Int.le_trans ?_ (Int.le_max_right _ _)
      omega
  · rw [hn.write, hs.write, List.map_append]
    exact (largest_snoc _ _).symm
  · rw [hn.group, hs.group, List.map_append]
    exact (largest_snoc _ _).symm

theorem wrote_exact (h : Fits older (b, ms) m.run begun) (hn : Noted b b' m) (hx : Exact m.run (b, ms)) :
    Exact m.run (b', ms ++ [m]) := by
  have hruns : ∀ m' ∈ ms ++ [m], m'.run = m.run := by
    intro m' hm'
    rcases List.mem_append.1 hm' with hm' | hm'
    · exact hx.runs m' hm'
    · rw [List.mem_singleton.1 hm']
  cases ms with
  | nil =>
    have hu : b.used = false := (h.sums (b, []) (by simp)).used
    have hd : b'.each = ⟨m.d, m.d, max b.each.rise 0⟩ := by
      rw [hn.each]
      simp [noted, hu, Spread.fromRise, Spread.add]
    refine ⟨hruns, fun _ => ⟨m, by simp, by rw [hd]⟩, fun _ => ⟨m, by simp, by rw [hd]⟩, ?_⟩
    rw [hd]
    exact Int.max_le.2 ⟨Int.le_trans hx.rise (naive_nonneg _), naive_nonneg _⟩
  | cons m₀ ms₀ =>
    have hd : b'.each = b.each.add m.d :=
      hn.each.trans (h.noted_same List.mem_cons_self (hx.runs m₀ List.mem_cons_self) m.d)
    obtain ⟨ml, hml, hlo⟩ := hx.lo (List.cons_ne_nil _ _)
    obtain ⟨mh, hmh, hhi⟩ := hx.hi (List.cons_ne_nil _ _)
    refine ⟨hruns, fun _ => ?_, fun _ => ?_, ?_⟩
    · rw [hd]
      rcases Int.le_total b.each.lo m.d with hle | hle
      · exact ⟨ml, List.mem_append_left _ hml, by simp [Spread.add, Int.min_eq_left hle, hlo]⟩
      · exact ⟨m, by simp, by simp [Spread.add, Int.min_eq_right hle]⟩
    · rw [hd]
      rcases Int.le_total b.each.hi m.d with hle | hle
      · exact ⟨m, by simp, by simp [Spread.add, Int.max_eq_right hle]⟩
      · exact ⟨mh, List.mem_append_left _ hmh, by simp [Spread.add, Int.max_eq_left hle, hhi]⟩
    · rw [hd]
      refine Int.max_le.2 ⟨Int.le_trans hx.rise (naive_append _ _), ?_⟩
      have hpair := (List.pairwise_append.1 (rise_le_naive ((m₀ :: ms₀) ++ [m]))).2.2 ml hml m (by simp)
      have := hpair (hx.runs ml hml)
      rw [← hlo]
      exact this

/-- A write of the run under way is noted in the newest bucket. -/
theorem wrote (h : Fits older (b, ms) m.run begun) (hn : Noted b b' m) : Fits older (b', ms ++ [m]) m.run begun := by
  have hrise := (noted_bounds b (UInt32.ofNat m.run) m.d).2.2
  refine ⟨fun x hx => ?_, ?_, fun hne => absurd rfl (hne m (by simp)), ?_, ?_, fun x hx => ?_⟩
  · rcases List.mem_append.1 hx with hx | hx
    · exact h.sums x (List.mem_append_left _ hx)
    · rw [List.mem_singleton.1 hx]
      exact h.wrote_sums hn
  · obtain ⟨hold, -, hcur⟩ := List.pairwise_append.1 h.saved
    refine List.pairwise_append.2 ⟨hold, List.pairwise_singleton _ _, fun y hy x hx i hi j hj hij hover => ?_⟩
    rw [List.mem_singleton.1 hx] at hj hover ⊢
    simp only [hn.each]
    refine Int.le_trans ?_ hrise
    have hjr : j.run ≠ m.run := fun hr => hover m (by simp) hr.symm
    have hj : j ∈ ms := by
      rcases List.mem_append.1 hj with hj | hj
      · exact hj
      · exact absurd (congrArg Mark.run (List.mem_singleton.1 hj)) hjr
    by_cases hlast : ∀ l, ms.getLast? = some l → l.run ≠ m.run
    · exact h.ended hlast y hy i hi j hj hij
    · refine hcur y hy (b, ms) (by simp) i hi j hj hij fun l hl => ?_
      have : l.run = m.run := by
        by_contra hne
        exact hlast fun l' hl' => by rw [hl] at hl'; cases hl'; exact hne
      exact fun hlj => hjr (hlj ▸ this)
  · have := h.runs
    simp only [List.map_append, List.map_cons, List.map_nil, List.flatten_append, List.flatten_cons, List.flatten_nil,
      List.append_nil] at this ⊢
    rw [← List.append_assoc]
    refine List.pairwise_append.2 ⟨this, List.pairwise_singleton _ _, fun l hl m' hm' => ?_⟩
    rw [List.mem_singleton.1 hm']
    exact h.runs_le l (by simpa using hl)
  · intro l hl
    simp only [List.map_append, List.map_cons, List.map_nil, List.flatten_append, List.flatten_cons, List.flatten_nil,
      List.append_nil, ← List.append_assoc] at hl
    rcases List.mem_append.1 hl with hl | hl
    · exact h.runs_le l (by simpa using hl)
    · rw [List.mem_singleton.1 hl]
  · rw [List.drop_append] at hx
    rcases List.mem_append.1 hx with hx | hx
    · exact h.exact x (by rw [List.drop_append]; exact List.mem_append_left _ hx)
    · have hcur : (b, ms) ∈ (older ++ [(b, ms)]).drop (older.length + 1 - begun) := by
        rw [List.drop_append]
        refine List.mem_append_right _ ?_
        cases hk : older.length + 1 - begun - older.length with
        | zero => simp
        | succ k => rw [hk] at hx; simp at hx
      rw [List.mem_singleton.1 (List.drop_subset _ _ hx)]
      exact h.wrote_exact hn (h.exact _ hcur)

/-- The rise that the buckets of these slots come to. -/
def riseOf (only : Option UInt32) (slots : List Slot) : Int :=
  max ((scanned only Bucket.each (slots.map Prod.fst)).foldl scan (0, none)).1 0

theorem scanned_append (only : Option UInt32) (bs cs : List Bucket) :
    scanned only Bucket.each (bs ++ cs) = scanned only Bucket.each bs ++ scanned only Bucket.each cs := by
  simp [scanned]

theorem scanned_cons {only : Option UInt32} {b : Bucket} (hu : b.used = true) (ho : ∀ run, only = some run → run = b.run)
    (bs : List Bucket) : scanned only Bucket.each (b :: bs) = (b.run, b.each) :: scanned only Bucket.each bs := by
  have : (only.all fun run => decide (run = b.run)) = true := by
    cases only with
    | none => rfl
    | some run => simpa using ho run rfl
  simp [scanned, hu, this]

theorem Sums.used_of_mem {x : Slot} (h : Sums x) {m : Mark} (hm : m ∈ x.2) : x.1.used = true := by
  rw [h.used]
  cases hx : x.2 with
  | nil => simp [hx] at hm
  | cons _ _ => rfl

/-- A slot between two marks of one run has no other run. -/
theorem between {x : Slot} (hs : Sums x) {r : Nat} (hr : ∀ m ∈ x.2, m.run = r) (hu : x.1.used = true) :
    x.1.run = UInt32.ofNat r := by
  cases hl : x.2.getLast? with
  | none =>
    rw [hs.used, List.getLast?_eq_none_iff.1 hl] at hu
    cases hu
  | some m => rw [(hs.last m hl).1, hr m (List.mem_of_getLast? hl)]

/-- The rise from a mark of one slot to one of a later, whose run has not ended there,
is found by the scan. -/
theorem across {p q t : List Slot} {y x : Slot} {i j : Mark} {only : Option UInt32}
    (hs : ∀ z ∈ p ++ y :: (q ++ x :: t), Sums z)
    (hruns : ((p ++ y :: (q ++ x :: t)).map Prod.snd).flatten.Pairwise fun m m' => m.run ≤ m'.run) (hi : i ∈ y.2)
    (hj : j ∈ x.2) (hij : i.run = j.run) (hlast : ∃ m, x.2.getLast? = some m ∧ m.run = j.run)
    (ho : ∀ run, only = some run → run = UInt32.ofNat j.run) : j.d - i.d ≤ riseOf only (p ++ y :: (q ++ x :: t)) := by
  simp only [List.map_append, List.map_cons, List.flatten_append, List.flatten_cons] at hruns
  obtain ⟨-, hruns, -⟩ := List.pairwise_append.1 hruns
  obtain ⟨hy, hruns, hyq⟩ := List.pairwise_append.1 hruns
  obtain ⟨-, -, hqx⟩ := List.pairwise_append.1 hruns
  have hsy : Sums y := hs y (by simp)
  have hsx : Sums x := hs x (by simp)
  obtain ⟨mx, hmx, hmxr⟩ := hlast
  have hxrun : x.1.run = UInt32.ofNat j.run := hmxr ▸ (hsx.last mx hmx).1
  -- the last mark of the earlier slot stands between the two
  have hylast : ∃ m, y.2.getLast? = some m ∧ m.run = i.run := by
    cases hl : y.2.getLast? with
    | none => simp [List.getLast?_eq_none_iff.1 hl] at hi
    | some m =>
      refine ⟨m, rfl, ?_⟩
      have hle : m.run ≤ j.run := hyq m (List.mem_of_getLast? hl) j (by simp [hj])
      have hge : i.run ≤ m.run := by
        obtain ⟨ms, hms⟩ := List.getLast?_eq_some_iff.1 hl
        rw [hms] at hi hy
        rcases List.mem_append.1 hi with hi | hi
        · exact (List.pairwise_append.1 hy).2.2 i hi m List.mem_cons_self
        · rw [List.mem_singleton.1 hi]
      omega
  obtain ⟨my, hmy, hmyr⟩ := hylast
  have hyrun : y.1.run = UInt32.ofNat i.run := hmyr ▸ (hsy.last my hmy).1
  have hlo : y.1.each.lo ≤ i.d := ((hsy.last my hmy).2 i hi hmyr.symm).1
  have hhi : j.d ≤ x.1.each.hi := ((hsx.last mx hmx).2 j hj hmxr.symm).2
  have hmid : ∀ z ∈ scanned only Bucket.each (q.map Prod.fst), z.1 = y.1.run := by
    intro z hz
    obtain ⟨b, hb, rfl⟩ := List.mem_map.1 hz
    obtain ⟨hb, hu⟩ := List.mem_filter.1 hb
    obtain ⟨w, hw, rfl⟩ := List.mem_map.1 hb
    have hwrun : ∀ m ∈ w.2, m.run = i.run := by
      intro m hm
      have hmem : m ∈ (q.map Prod.snd).flatten := List.mem_flatten.2 ⟨w.2, List.mem_map_of_mem hw, hm⟩
      have h1 : i.run ≤ m.run := hyq i hi m (List.mem_append_left _ hmem)
      have h2 : m.run ≤ j.run := hqx m hmem j (by simp [hj])
      omega
    rw [between (hs w (by simp [hw])) hwrun (by simpa using (Bool.and_eq_true _ _ ▸ hu).1), hyrun]
  have hscan : scanned only Bucket.each ((p ++ y :: (q ++ x :: t)).map Prod.fst) =
      scanned only Bucket.each (p.map Prod.fst) ++ (y.1.run, y.1.each) ::
        (scanned only Bucket.each (q.map Prod.fst) ++ (x.1.run, x.1.each) :: scanned only Bucket.each (t.map Prod.fst)) := by
    rw [List.map_append, scanned_append, List.map_cons,
      scanned_cons (Sums.used_of_mem hsy hi) fun run h => (ho run h).trans (hij ▸ hyrun.symm), List.map_append,
      scanned_append, List.map_cons, scanned_cons (Sums.used_of_mem hsx hj) fun run h => (ho run h).trans hxrun.symm]
  have hb : x.1.run = y.1.run := by rw [hxrun, hyrun, hij]
  rw [riseOf, hscan]
  refine Int.le_trans (Int.le_trans ?_ (across_le_foldl_scan (0, none) hb hmid)) (Int.le_max_left _ _)
  simp only
  omega

theorem pairwise_of_split {α : Type} {R : α → α → Prop} {l : List α}
    (h : ∀ p y q x t, l = p ++ y :: (q ++ x :: t) → R y x) : l.Pairwise R := by
  rw [List.pairwise_iff_forall_sublist]
  intro a b hab
  obtain ⟨r₁, r₂, rfl, ha, hb⟩ := List.cons_sublist_iff.1 hab
  obtain ⟨p, q, rfl⟩ := List.append_of_mem ha
  obtain ⟨q', t, rfl⟩ := List.append_of_mem (List.singleton_sublist.1 hb)
  exact h p a (q ++ q') b t (by simp)

theorem rise_le_riseOf {slots : List Slot} {x : Slot} (hx : x ∈ slots) (hu : x.1.used = true) :
    x.1.each.rise ≤ riseOf none slots := by
  refine Int.le_trans (rise_le_foldl_scan (a := (x.1.run, x.1.each)) (0, none) ?_) (Int.le_max_left _ _)
  refine List.mem_map.2 ⟨x.1, List.mem_filter.2 ⟨List.mem_map_of_mem hx, ?_⟩, rfl⟩
  simp [hu]

/-- The buckets never show less than the writes. -/
theorem naive_le (h : Fits older current run begun) :
    naive ((older ++ [current]).map Prod.snd).flatten ≤ riseOf none (older ++ [current]) := by
  have hacross : (older ++ [current]).Pairwise fun y x => ∀ i ∈ y.2, ∀ j ∈ x.2, i.run = j.run →
      (∃ m, x.2.getLast? = some m ∧ m.run = j.run) → j.d - i.d ≤ riseOf none (older ++ [current]) := by
    apply pairwise_of_split
    intro p y q x t he i hi j hj hij hlast
    have hs := h.sums
    have hruns := h.runs
    rw [he] at hs hruns ⊢
    exact across hs hruns hi hj hij hlast nofun
  refine naive_le_iff.2 ⟨Int.le_max_right _ _, List.pairwise_flatten.2 ⟨?_, ?_⟩⟩
  · intro ms hms
    obtain ⟨x, hx, rfl⟩ := List.mem_map.1 hms
    refine (h.sums x hx).rise.imp_of_mem fun hm _ hp hr => Int.le_trans (hp hr) ?_
    exact rise_le_riseOf hx (Sums.used_of_mem (h.sums x hx) hm)
  · rw [List.pairwise_map]
    refine (h.saved.and hacross).imp_of_mem fun {y x} _ hx hyx i hi j hj hij => ?_
    by_cases hlast : ∃ m, x.2.getLast? = some m ∧ m.run = j.run
    · exact hyx.2 i hi j hj hij hlast
    · refine Int.le_trans (hyx.1 i hi j hj hij fun m hm hmr => hlast ⟨m, hm, hmr⟩) ?_
      exact rise_le_riseOf hx (Sums.used_of_mem (h.sums x hx) hj)

/-- They show no more, where no restart fell inside the window. -/
theorem le_naive (h : Fits older current run begun) (hw : older.length + 1 ≤ begun) :
    riseOf none (older ++ [current]) ≤ naive ((older ++ [current]).map Prod.snd).flatten := by
  have hexact : ∀ x ∈ older ++ [current], Exact run x := by
    intro x hx
    refine h.exact x ?_
    rwa [Nat.sub_eq_zero_of_le hw, List.drop_zero]
  have hne : ∀ x ∈ older ++ [current], x.1.used = true → x.2 ≠ [] := by
    intro x hx hu hn
    rw [(h.sums x hx).used, hn] at hu
    cases hu
  have hall := rise_le_naive ((older ++ [current]).map Prod.snd).flatten
  have hnn := naive_nonneg ((older ++ [current]).map Prod.snd).flatten
  refine Int.max_le.2 ⟨foldl_scan_le (0, none) hnn ?_ nofun ?_, hnn⟩
  · intro z hz
    obtain ⟨b, hb, rfl⟩ := List.mem_map.1 hz
    obtain ⟨x, hx, rfl⟩ := List.mem_map.1 (List.mem_filter.1 hb).1
    refine Int.le_trans (hexact x hx).rise (naive_le_iff.2 ⟨hnn, ?_⟩)
    exact (List.pairwise_flatten.1 hall).1 x.2 (List.mem_map_of_mem hx)
  · have hcross := (List.pairwise_flatten.1 hall).2
    rw [List.pairwise_map] at hcross
    rw [scanned, List.pairwise_map, List.pairwise_filter, List.pairwise_map]
    refine hcross.imp_of_mem fun {y x} hy hx hyx huy hux => ?_
    have huy : y.1.used = true := by simpa using huy
    have hux : x.1.used = true := by simpa using hux
    obtain ⟨i, hi, hlo⟩ := (hexact y hy).lo (hne y hy huy)
    obtain ⟨j, hj, hhi⟩ := (hexact x hx).hi (hne x hx hux)
    rw [← hlo, ← hhi]
    exact hyx i hi j hj (((hexact y hy).runs i hi).trans ((hexact x hx).runs j hj).symm)

/-- The most of a count of the buckets is the most of it among their marks. -/
theorem largest_used {slots : List Slot} (hs : ∀ x ∈ slots, Sums x) (count : Bucket → Nat) (of : Mark → Nat)
    (hc : ∀ x ∈ slots, count x.1 = largest (x.2.map of)) :
    largest (((slots.map Prod.fst).filter Bucket.used).map count) = largest ((slots.map Prod.snd).flatten.map of) := by
  apply Nat.le_antisymm
  · rw [largest_le_iff]
    intro a ha
    obtain ⟨b, hb, rfl⟩ := List.mem_map.1 ha
    obtain ⟨x, hx, rfl⟩ := List.mem_map.1 (List.mem_filter.1 hb).1
    rw [hc x hx, largest_le_iff]
    intro a ha
    obtain ⟨m, hm, rfl⟩ := List.mem_map.1 ha
    exact le_largest (List.mem_map_of_mem (List.mem_flatten.2 ⟨x.2, List.mem_map_of_mem hx, hm⟩))
  · rw [largest_le_iff]
    intro a ha
    obtain ⟨m, hm, rfl⟩ := List.mem_map.1 ha
    obtain ⟨l, hl, hm⟩ := List.mem_flatten.1 hm
    obtain ⟨x, hx, rfl⟩ := List.mem_map.1 hl
    have hmax : of m ≤ count x.1 := by
      rw [hc x hx]
      exact le_largest (List.mem_map_of_mem hm)
    have hu := Sums.used_of_mem (hs x hx) hm
    exact Nat.le_trans hmax (le_largest (List.mem_map_of_mem (List.mem_filter.2 ⟨List.mem_map_of_mem hx, hu⟩)))

/-- A restart saves in the newest bucket the rises of the run that ends. -/
theorem restart (h : Fits older (b, ms) run begun)
    (hb : b' = if b.used then { b with each := b'.each, first := b'.first } else b)
    (he : b.used = true → b'.each = { b.each with
      rise := max b.each.rise (riseOf (some (UInt32.ofNat run)) (older ++ [(b, ms)])) }) :
    Fits older (b', ms) (run + 1) 0 := by
  have hs := h.sums (b, ms) (by simp)
  have hrise : b.each.rise ≤ b'.each.rise := by
    by_cases hu : b.used = true
    · rw [he hu]
      exact Int.le_max_left _ _
    · rw [hb, if_neg hu]
  have hsame : b'.used = b.used ∧ b'.run = b.run ∧ b'.each.lo = b.each.lo ∧ b'.each.hi = b.each.hi ∧
      b'.write = b.write ∧ b'.group = b.group := by
    by_cases hu : b.used = true
    · rw [he hu, hb, if_pos hu]
      exact ⟨rfl, rfl, rfl, rfl, rfl, rfl⟩
    · rw [hb, if_neg hu]
      exact ⟨rfl, rfl, rfl, rfl, rfl, rfl⟩
  obtain ⟨hused, hrun, hlo, hhi, hwrite, hgroup⟩ := hsame
  have hcur : (older ++ [(b', ms)]).map Prod.snd = (older ++ [(b, ms)]).map Prod.snd := by simp
  obtain ⟨hold, -, hsaved⟩ := List.pairwise_append.1 h.saved
  refine ⟨fun x hx => ?_, ?_, fun _ y hy i hi j hj hij => ?_, hcur ▸ h.runs, fun m hm => ?_, fun x hx => ?_⟩
  · rcases List.mem_append.1 hx with hx | hx
    · exact h.sums x (List.mem_append_left _ hx)
    · rw [List.mem_singleton.1 hx]
      refine ⟨hused.trans hs.used, fun m hm => ?_, Int.le_trans hs.nonneg hrise, ?_, hwrite.trans hs.write,
        hgroup.trans hs.group⟩
      · refine ⟨hrun.trans (hs.last m hm).1, fun m' hm' hr => ?_⟩
        rw [hlo, hhi]
        exact (hs.last m hm).2 m' hm' hr
      · exact hs.rise.imp fun hp hr => Int.le_trans (hp hr) hrise
  · refine List.pairwise_append.2 ⟨hold, List.pairwise_singleton _ _, fun y hy x hx i hi j hj hij hover => ?_⟩
    rw [List.mem_singleton.1 hx] at hj hover ⊢
    exact Int.le_trans (hsaved y hy (b, ms) (by simp) i hi j hj hij hover) hrise
  · by_cases hlast : ∃ m, ms.getLast? = some m ∧ m.run = j.run
    · obtain ⟨m, hm, hmr⟩ := hlast
      by_cases hjr : j.run = run
      · obtain ⟨p, q, rfl⟩ := List.append_of_mem hy
        have hsplit : p ++ y :: q ++ [(b, ms)] = p ++ y :: (q ++ (b, ms) :: []) := by simp
        have hfound : j.d - i.d ≤ riseOf (some (UInt32.ofNat run)) (p ++ y :: (q ++ (b, ms) :: [])) := by
          refine across (hsplit ▸ h.sums) (hsplit ▸ h.runs) hi hj hij ⟨m, hm, hmr⟩ ?_
          rintro _ ⟨⟩
          rw [hjr]
        rw [he (Sums.used_of_mem hs hj), hsplit]
        exact Int.le_trans hfound (Int.le_max_right _ _)
      · refine Int.le_trans (h.ended (fun m' hm' => ?_) y hy i hi j hj hij) hrise
        have : m' = m := by simpa [hm] using hm'.symm
        rw [this, hmr]
        exact hjr
    · exact Int.le_trans (hsaved y hy (b, ms) (by simp) i hi j hj hij fun m hm hmr => hlast ⟨m, hm, hmr⟩) hrise
  · exact Nat.le_succ_of_le (h.runs_le m (hcur ▸ hm))
  · simp at hx

end Fits

/-- The rhythm and the log of the same writes. -/
structure Agree (r : Rhythm) (g : Log) : Prop where
  started : r.started = g.started
  run : r.run = UInt32.ofNat g.run
  origin : r.origin = g.origin
  frames : r.frames = g.frames
  last : r.last = g.last
  group : r.group = g.group
  slots : ∃ older : List Slot, r.older = older.map Prod.fst ∧ g.older = older.map Prod.snd ∧
    older.length = bucketCount - 1 ∧ Fits older (r.current, g.current) g.run g.begun

namespace Agree

variable {r : Rhythm} {g : Log}

theorem shift (h : Agree r g) : Agree r.shift g.shift := by
  obtain ⟨older, hr, hg, hlen, hf⟩ := h.slots
  refine ⟨h.started, h.run, h.origin, h.frames, h.last, h.group, (older ++ [(r.current, g.current)]).tail, ?_, ?_, ?_, hf.shift⟩
  · simp [Rhythm.shift, hr, List.map_tail]
  · simp [Log.shift, hg, List.map_tail]
  · simp [hlen]

theorem iterate_shift (h : Agree r g) (n : Nat) : Agree (Rhythm.shift^[n] r) (Log.shift^[n] g) := by
  induction n with
  | zero => exact h
  | succ n ih =>
    rw [Function.iterate_succ_apply', Function.iterate_succ_apply']
    exact ih.shift

theorem beginAt (h : Agree r g) (started : Nat) : Agree (r.beginAt started) (g.beginAt started) :=
  ⟨rfl, h.run, h.origin, h.frames, h.last, h.group, h.slots⟩

theorem advance (h : Agree r g) (t : Nat) : Agree (r.advance t) (g.advance t) := by
  rw [Rhythm.advance, Log.advance, ← h.started]
  exact (h.iterate_shift _).beginAt _

theorem record (h : Agree r g) (t frames : Nat) (burst : Bool) :
    Agree (r.record t frames burst) (g.record r.format t frames burst) := by
  obtain ⟨older, hr, hg, hlen, hf⟩ := h.slots
  have hd : r.lateAt (r.origin.getD t) t = microsInt (t - g.origin.getD t) - microsInt (r.format.duration g.frames) := by
    rw [lateAt, h.origin, h.frames]
  refine ⟨h.started, h.run, ?_, ?_, ?_, ?_, older, hr, hg, hlen, ?_⟩
  · simp only [Rhythm.record, Log.record, h.origin]
  · simp only [Rhythm.record, Log.record, h.frames]
  · simp only [Rhythm.record, Log.record]
  · simp only [Rhythm.record, Log.record, h.last, h.group]
  · simp only [Rhythm.record, Log.record]
    refine hf.wrote ⟨?_, ?_, ?_, ?_, ?_⟩
    · split
      · rfl
      · rename_i hu
        simpa using (by simpa using hu : _ ∧ _).1
    · split
      · exact h.run
      · rename_i hu
        rw [← h.run]
        exact (by simpa using hu : _ ∧ _).2
    · rw [← hd, ← h.run]
      unfold Fits.noted
      split <;> rfl
    · split <;> rfl
    · rw [h.last, h.group]
      split <;> rfl

theorem wrote (h : Agree r g) (t frames : Nat) (burst : Bool) :
    Agree (r.wrote t frames burst) (g.wrote r.format t frames burst) := by
  rw [Rhythm.wrote, Log.wrote, ← advance_format r t]
  exact (h.advance t).record t frames burst

theorem restart (h : Agree r g) : Agree r.restart g.restart := by
  obtain ⟨older, hr, hg, hlen, hf⟩ := h.slots
  have hrise : r.rise (some r.run) Bucket.each = Fits.riseOf (some (UInt32.ofNat g.run)) (older ++ [(r.current, g.current)]) := by
    simp [rise, buckets, Fits.riseOf, hr, h.run]
  refine ⟨h.started, ?_, rfl, rfl, rfl, rfl, older, hr, hg, hlen, ?_⟩
  · simp [Rhythm.restart, Log.restart, h.run, UInt32.ofNat_add]
  · simp only [Rhythm.restart, Log.restart]
    refine hf.restart ?_ fun hu => ?_
    · split <;> rfl
    · rw [if_pos hu, ← hrise]

theorem new (format : Format) : Agree (Rhythm.new format) Log.new := by
  refine ⟨rfl, rfl, rfl, rfl, rfl, rfl, List.replicate 7 (Bucket.default, []), rfl, rfl, rfl, ?_⟩
  have hall : ∀ x ∈ List.replicate 7 (Bucket.default, []) ++ [(Bucket.default, [])], x = ((Bucket.default, []) : Slot) := by
    simp
  have hnone : ((List.replicate 7 ((Bucket.default, []) : Slot) ++ [(Bucket.default, [])]).map Prod.snd).flatten = [] := rfl
  refine ⟨fun x hx => ?_, ?_, fun _ y _ i _ j hj => (nomatch hj), ?_, ?_, fun x hx => ?_⟩
  · rw [hall x hx]
    exact Fits.sums_default
  · refine List.pairwise_of_forall_mem_list fun y hy x hx i hi => ?_
    rw [hall y hy] at hi
    cases hi
  · rw [Rhythm.new, Log.new, hnone]
    exact List.Pairwise.nil
  · rw [Rhythm.new, Log.new, hnone]
    nofun
  · rw [hall x (List.drop_subset _ _ hx)]
    exact Fits.exact_default _

variable {format : Format}

theorem step (h : Agree r g) (hf : r.format = format) (a : Act) :
    ∃ r' g', Rhythm.step r a = some r' ∧ logStep format g a = some g' ∧ Agree r' g' ∧ r'.format = format := by
  subst hf
  cases a with
  | wrote t frames burst => exact ⟨_, _, rfl, rfl, h.wrote t frames burst, wrote_format r t frames burst⟩
  | lateBy t => exact ⟨_, _, rfl, rfl, h.advance t, advance_format r t⟩
  | restart => exact ⟨_, _, rfl, rfl, h.restart, rfl⟩

theorem of_run (as : List Act) (h : Agree r g) (hf : r.format = format) :
    ∃ r' g', Lib.run Rhythm.step r as = some r' ∧ Lib.run (logStep format) g as = some g' ∧ Agree r' g' ∧ r'.format = format := by
  induction as generalizing r g with
  | nil => exact ⟨r, g, rfl, rfl, h, hf⟩
  | cons a as ih =>
    obtain ⟨r₁, g₁, hr, hg, h₁, hf₁⟩ := h.step hf a
    obtain ⟨r', g', hr', hg', h'⟩ := ih h₁ hf₁
    refine ⟨r', g', ?_, ?_, h'⟩
    · rw [run_cons, hr]
      exact hr'
    · rw [run_cons, hg]
      exact hg'

theorem naive_le_rise (h : Agree r g) : naive g.live ≤ r.rise none Bucket.each := by
  obtain ⟨older, hr, hg, -, hf⟩ := h.slots
  have := hf.naive_le
  simpa [rise, buckets, Fits.riseOf, Log.live, hr, hg] using this

theorem rise_le_naive (h : Agree r g) (hw : g.Whole) : r.rise none Bucket.each ≤ naive g.live := by
  obtain ⟨older, hr, hg, hlen, hf⟩ := h.slots
  have := hf.le_naive (by rw [hlen]; exact hw)
  simpa [rise, buckets, Fits.riseOf, Log.live, hr, hg] using this

theorem hold_eq (h : Agree r g) : r.hold =
    min (max (largest (g.live.map Mark.group)) (largest (g.live.map Mark.size) +
      min (r.format.frames (micros (r.rise none Bucket.each).toNat)) (r.format.frames most))) (r.format.frames most) := by
  obtain ⟨older, hr, hg, -, hf⟩ := h.slots
  have hwrite := Fits.largest_used hf.sums Bucket.write Mark.size fun x hx => (hf.sums x hx).write
  have hgroup := Fits.largest_used hf.sums Bucket.group Mark.group fun x hx => (hf.sums x hx).group
  have hb : r.buckets = (older ++ [(r.current, g.current)]).map Prod.fst := by simp [buckets, hr]
  have hl : g.live = ((older ++ [(r.current, g.current)]).map Prod.snd).flatten := by simp [Log.live, hg]
  rw [hold, hl, hb, ← hwrite, ← hgroup]

/-- More of a rise is more to hold. -/
theorem hold_le {group write cap a b : Nat} (h : a ≤ b) :
    min (max group (write + min a cap)) cap ≤ min (max group (write + min b cap)) cap := by
  omega

end Agree

/-- After any writes, silences and restarts, the buckets ask for no less than the
writes still in the window do, for the same where no restart fell inside the window, and
never for more than the cap. -/
theorem buckets_refine_naive (format : Format) (as : List Act) : ∃ r g,
    Lib.run step (new format) as = some r ∧ Lib.run (logStep format) Log.new as = some g ∧
    naive g.live ≤ r.rise none Bucket.each ∧ g.hold format ≤ r.hold ∧
    (g.Whole → r.rise none Bucket.each = naive g.live ∧ r.hold = g.hold format) ∧ r.hold ≤ format.frames most := by
  obtain ⟨r, g, hr, hg, h, rfl⟩ := (Agree.new format).of_run as rfl
  have hle := h.naive_le_rise
  refine ⟨r, g, hr, hg, hle, ?_, fun hw => ?_, ?_⟩
  · rw [h.hold_eq, Log.hold]
    exact Agree.hold_le (r.format.frames_mono (Nat.mul_le_mul_right _ (Int.toNat_le_toNat hle)))
  · have heq : r.rise none Bucket.each = naive g.live := Int.le_antisymm (h.rise_le_naive hw) hle
    exact ⟨heq, by rw [h.hold_eq, Log.hold, heq]⟩
  · rw [h.hold_eq]
    exact Nat.min_le_right _ _

/-- Ten milliseconds of sound at 48 kHz ask for themselves, with no rise at all; and two
such writes 700 ms apart show a rise of 690 ms, which the hold stops short of. -/
theorem hold_adds_write_and_stops :
    (∃ r g, Lib.run step (new ⟨48000, 2, by decide, by decide⟩) [.wrote 0 480 false] = some r ∧
      Lib.run (logStep ⟨48000, 2, by decide, by decide⟩) Log.new [.wrote 0 480 false] = some g ∧
      g.Whole ∧ naive g.live = 0 ∧ r.hold = 480) ∧
    (∃ r g, Lib.run step (new ⟨48000, 2, by decide, by decide⟩) [.wrote 0 480 false, .wrote (millis 700) 480 false] = some r ∧
      Lib.run (logStep ⟨48000, 2, by decide, by decide⟩) Log.new [.wrote 0 480 false, .wrote (millis 700) 480 false] = some g ∧
      g.Whole ∧ naive g.live = 690000 ∧ r.format.frames (micros 690000) = 33120 ∧ r.hold = 24000) := by
  refine ⟨⟨_, _, rfl, rfl, ?_⟩, ⟨_, _, rfl, rfl, ?_⟩⟩
  · decide +kernel
  · decide +kernel

end Rhythm

end Vento.Audio
