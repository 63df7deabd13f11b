import Vento.Api.Mailbox
/-!
# What the window sees of a session

The runs of a mailbox. What the window has taken, with what still waits, is the sequence of
events it sees; the theorems are about its place-by-place contents after any run.

`Told` is about what was reported: occurrences are all there and in order, of each kind of
state the last is the latest, and nothing late follows `Closed`. `Marked` is about damage: a
rectangle is still marked, or a frame of its size covers it. `Fitting` is about the frames:
their rectangles lie in the desktop of their place.
-/

namespace Vento.Api

open Vento.Lib

theorem heard_snoc_none {c : Call} (hc : c.event? = none) (cs : List Call) : heard (cs ++ [c]) = heard cs := by
  simp [heard, reported, hc]

theorem heard_snoc_some {c : Call} {e : Event} (hc : c.event? = some e) (cs : List Call) :
    heard (cs ++ [c]) = hear (heard cs) e := by
  simp [heard, reported, hc]

theorem heard_snoc_append {c : Call} {e : Event} (hc : c.event? = some e) {cs : List Call}
    (h : e.isLate = true → (heard cs).any Event.isClosed = false) : heard (cs ++ [c]) = heard cs ++ [e] := by
  rw [heard_snoc_some hc, hear]
  cases hl : e.isLate with
  | true => simp [h hl]
  | false => rfl

/-- Occurrences are heard, all of them. -/
theorem heard_filter_isOneShot (cs : List Call) :
    (heard cs).filter Event.isOneShot = (reported cs).filter Event.isOneShot := by
  induction cs using List.reverseRecOn with
  | nil => rfl
  | append_singleton cs c ih =>
    cases hc : c.event? with
    | none => simpa [heard_snoc_none hc, reported, hc] using ih
    | some e =>
      have hrep : reported (cs ++ [c]) = reported cs ++ [e] := by simp [reported, hc]
      rw [heard_snoc_some hc, hrep, List.filter_append, ← ih, hear]
      split
      · next h =>
        have hs := Event.isState_of_isLate (Bool.and_eq_true_iff.1 h).1
        simp [Event.isOneShot, hs]
      · exact List.filter_append ..

theorem lastOf_snoc (e x : Event) (es : List Event) :
    lastOf e (es ++ [x]) = if e.sameKind x then some x else lastOf e es := by
  unfold lastOf
  split
  · next h => simp [h]
  · next h => simp [h]

/-- Nothing late comes after the end. -/
def Quiet (es : List Event) : Prop := es.Pairwise fun a b => a.isClosed = true → b.isLate = false

theorem quiet_iff (es : List Event) : Quiet es ↔ Quiet (es.filter fun e => e.isClosed || e.isLate) := by
  unfold Quiet
  rw [List.pairwise_filter]
  constructor
  · intro h
    exact h.imp fun hab _ _ => hab
  · intro h
    refine h.imp fun {a b} hab ha => ?_
    cases hb : b.isLate with
    | false => rfl
    | true => simp [ha, hb] at hab

/-! ## What was reported -/

/-- The sequence after some calls is what was heard of them, frames and superseded states apart. -/
structure Told (cs : List Call) (s : Session) : Prop where
  closed : (heard cs).any Event.isClosed = true ↔ s.inner.state = .closed
  oneShots : s.sequence.filter Event.isOneShot = (heard cs).filter Event.isOneShot
  latest : ∀ e : Event, e.isState = true → lastOf e s.sequence = lastOf e (heard cs)
  unread : ∀ e : Event, e.isState = true → (s.inner.queue.filter e.sameKind).length ≤ 1
  quiet : Quiet s.sequence

/-- The calls the theorems are about: the size changes only while nothing is marked, no session connects
after its end, and no rectangle's edges overflow. -/
def Settled (s : Session) : Call → Prop
  | .report (.connected _ _) => s.inner.damage = [] ∧ s.inner.state ≠ .closed
  | .report (.desktopSize _ _) => s.inner.damage = []
  | .damaged rect => rect.Fits
  | _ => True

instance (s : Session) : DecidablePred (Settled s) := fun c => by
  unfold Settled
  split <;> infer_instance

theorem Told.any_closed {cs : List Call} {s : Session} (h : Told cs s) {e : Event} (he : e ∈ s.sequence)
    (hc : e.isClosed = true) : s.inner.state = .closed := by
  apply h.closed.1
  have hmem : e ∈ (heard cs).filter Event.isOneShot := by
    rw [← h.oneShots]
    exact List.mem_filter.2 ⟨he, Event.isOneShot_of_isClosed hc⟩
  exact List.any_eq_true.2 ⟨e, (List.mem_filter.1 hmem).1, hc⟩

/-- A call that reports nothing, or is ignored, and at most moves events to the window or changes frames. -/
theorem Told.of_same {cs cs' : List Call} {s s' : Session} (h : Told cs s) (hh : heard cs' = heard cs)
    (hs : s'.inner.state = s.inner.state)
    (hseq : ∀ p : Event → Bool, (∀ rects ended, p (.frame rects ended) = false) →
      s'.sequence.filter p = s.sequence.filter p)
    (hq : ∀ p : Event → Bool, (∀ rects ended, p (.frame rects ended) = false) →
      (s'.inner.queue.filter p).length ≤ (s.inner.queue.filter p).length) : Told cs' s' where
  closed := by rw [hh, hs, h.closed]
  oneShots := by rw [hh, hseq _ fun _ _ => rfl, h.oneShots]
  latest e he := by
    rw [hh, ← h.latest e he, lastOf, hseq _ fun _ _ => Event.not_sameKind_frame he, lastOf]
  unread e he := Nat.le_trans (hq _ fun _ _ => Event.not_sameKind_frame he) (h.unread e he)
  quiet := by
    rw [quiet_iff, hseq _ fun _ _ => rfl, ← quiet_iff]
    exact h.quiet

/-- Where an event of a size comes from. -/
theorem callback_of_isSize {callback : Callback} (h : callback.event.isSize = true) :
    (∃ width height, callback = .connected width height ∧ callback.event = .connected width height) ∨
      ∃ width height, callback = .desktopSize width height ∧ callback.event = .desktopSize width height := by
  cases callback with
  | connected width height => exact .inl ⟨width, height, rfl, rfl⟩
  | desktopSize width height => exact .inr ⟨width, height, rfl, rfl⟩
  | cursor pixels width height hotX hotY =>
    simp only [Callback.event] at h
    split at h <;> cases h
  | _ => cases h

theorem Call.not_isFrame {c : Call} {e : Event} (hc : c.event? = some e) : e.isFrame = false := by
  cases c with
  | report callback =>
    cases hc
    cases callback with
    | cursor pixels width height hotX hotY =>
      simp only [Callback.event]
      split <;> rfl
    | _ => rfl
  | ring => cases hc; rfl
  | _ => cases hc

theorem Settled.damage_nil {s : Session} {c : Call} {e : Event} (h : Settled s c) (hc : c.event? = some e)
    (he : e.isSize = true) : s.inner.damage = [] := by
  cases c with
  | report callback =>
    cases hc
    rcases callback_of_isSize he with ⟨width, height, rfl, -⟩ | ⟨width, height, rfl, -⟩
    · exact h.1
    · exact h
  | ring => cases hc; cases he
  | _ => cases hc

theorem Settled.not_closed {s : Session} {c : Call} {width height : Nat} (h : Settled s c)
    (hc : c.event? = some (.connected width height)) : s.inner.state ≠ .closed := by
  cases c with
  | report callback =>
    have he := Option.some.inj hc
    have hsize : callback.event.isSize = true := by rw [he]; rfl
    rcases callback_of_isSize hsize with ⟨w, h', rfl, -⟩ | ⟨w, h', -, hd⟩
    · exact h.2
    · cases hd.symm.trans he
  | _ => cases hc

theorem note_state (s : Inner) {e : Event} (hs : ∀ width height, e = .connected width height → s.state ≠ .closed) :
    (s.note e).state = .closed ↔ e.isClosed = true ∨ s.state = .closed := by
  cases e with
  | connected width height => simpa [Inner.note, Event.isClosed] using hs width height rfl
  | closed detail => simp [Inner.note, Event.isClosed]
  | _ => simp [Inner.note, Event.isClosed]

theorem Told.step {cs : List Call} {s s' : Session} {c : Call} (h : Told cs s) (hok : Settled s c)
    (hs : s.step c = some s') : Told (cs ++ [c]) s' := by
  cases Session.step_effect hs with
  | ignores e hc hl hclosed hi ht =>
    have hh : heard (cs ++ [c]) = heard cs := by
      rw [heard_snoc_some hc, hear, hl, h.closed.2 hclosed]
      rfl
    exact h.of_same hh (by rw [hi]) (fun p _ => by simp [Session.sequence, hi, ht]) (fun p _ => by rw [hi])
  | queues e queue hc hl hd hone hi ht =>
    have hh : heard (cs ++ [c]) = heard cs ++ [e] := by
      refine heard_snoc_append hc fun hlate => ?_
      rw [Bool.eq_false_iff]
      exact fun hany => hl hlate (h.closed.1 hany)
    have hdrops : Drops e s.sequence (s.taken ++ queue) := hd.append_left s.taken
    have hseq : s'.sequence = s.taken ++ queue ++ [e] := by simp [Session.sequence, hi, ht]
    constructor
    · rw [hh, hi, note_state s.inner fun width height heq => hok.not_closed (heq ▸ hc), ← h.closed]
      simp [or_comm]
    · rw [hseq, hh, List.filter_append, List.filter_append (heard cs), ← h.oneShots, hdrops.filter_eq]
      intro he x hx
      simp [Event.isOneShot, Event.isState_of_sameKind he hx]
    · intro e' he'
      rw [hseq, hh, lastOf_snoc, lastOf_snoc, ← h.latest e' he']
      split
      · rfl
      · next hne =>
        unfold lastOf
        rw [hdrops.filter_eq]
        intro _ x hx
        rw [Event.sameKind_of_sameKind e' hx]
        simpa using hne
    · intro e' he'
      rw [hi, List.filter_append, List.length_append]
      have hu := h.unread e' he'
      cases hkind : e'.sameKind e with
      | true =>
        have he := Event.isState_of_sameKind he' hkind
        have heq := Event.sameKind_congr hkind
        rw [heq] at hu hkind ⊢
        rw [hone he]
        simp only [hkind, List.filter_cons_of_pos, List.filter_nil, List.length_singleton]
        omega
      | false =>
        have hle := (hd.sublist.filter e'.sameKind).length_le
        simp only [hkind, List.filter_cons, List.filter_nil, List.length_nil, Bool.false_eq_true, if_false]
        omega
    · rw [hseq]
      refine List.pairwise_append.2 ⟨h.quiet.sublist hdrops.sublist, List.pairwise_singleton _ _, ?_⟩
      intro a ha b hb hclosed
      rw [List.mem_singleton.1 hb, Bool.eq_false_iff]
      intro hlate
      exact hl hlate (h.any_closed (hdrops.sublist.subset ha) hclosed)
  | marks rect hi ht =>
    exact h.of_same (heard_snoc_none rfl cs) (by rw [hi]; rfl) (fun p _ => by simp [Session.sequence, hi, ht, Inner.onDamaged])
      (fun p _ => by simp [hi, Inner.onDamaged])
  | ends now hi ht =>
    have hends := ends_onFrameEnd s.inner now
    refine h.of_same (heard_snoc_none rfl cs) (by rw [hi, (s.inner.onFrameEnd_facts now).2.2]) ?_ ?_
    · intro p hp
      rw [Session.sequence, hi, ht]
      exact (hends.append_left s.taken).filter_eq hp
    · intro p hp
      rw [hi, hends.filter_eq hp]
  | moves hc hm hn hseq hq hi =>
    exact h.of_same (heard_snoc_none hc cs) hi.2.2.2 (fun p _ => by rw [hseq]) (fun p _ => (hq.filter p).length_le)

/-! ## What was damaged -/

theorem keeps_merged (previous rects : List Rect) : Damage.Keeps (rects ++ previous) (Inner.merged previous rects) := by
  have h := Damage.keeps_extend [] previous
  rw [List.append_nil] at h
  exact (h.append_left rects).trans (Damage.keeps_extend _ rects)

/-- Of each frame's place, given by the size events before it, `P` holds of the frame's rectangles. -/
def AllPlaced (P : List Event → Rect → Prop) (es : List Event) : Prop := ∀ p ∈ placed es, ∀ r ∈ p.2, P p.1 r

/-- A frame at the place covers `r`. -/
def Shown (sizes : List Event) (r : Rect) (es : List Event) : Prop := ∃ rects, (sizes, rects) ∈ placed es ∧ Covers rects r

theorem placed_frame (u v : List Event) (rects : List Rect) (ended : Nat) :
    placed (u ++ .frame rects ended :: v) =
      placed u ++ (u.filter Event.isSize, rects) :: placedFrom (u.filter Event.isSize) v := placed_append _ _

theorem filter_isSize_eq_nil {v : List Event} (hv : ∀ e ∈ v, e.isSize = false) : v.filter Event.isSize = [] := by
  rw [List.filter_eq_nil_iff]
  intro e he
  simp [hv e he]

namespace Ends

variable {damage : List Rect} {es es' : List Event}

theorem allPlaced {P : List Event → Rect → Prop} (h : Ends damage es es')
    (hP : ∀ sizes previous rects, (∀ r ∈ previous, P sizes r) → (∀ r ∈ rects, P sizes r) →
      ∀ r ∈ Inner.merged previous rects, P sizes r)
    (hes : AllPlaced P es) (hd : ∀ r ∈ damage, P (es.filter Event.isSize) r) : AllPlaced P es' := by
  cases h with
  | none => exact hes
  | last _ now =>
    intro p hp
    rw [placed_append, List.mem_append] at hp
    rcases hp with hp | hp
    · exact hes p hp
    · rw [List.mem_singleton.1 hp]
      exact hd
  | unread u v previous ended hv =>
    unfold AllPlaced at hes ⊢
    rw [placed_frame, List.forall_mem_append, List.forall_mem_cons] at hes ⊢
    refine ⟨hes.1, hP _ _ _ hes.2.1 fun r hr => ?_, hes.2.2⟩
    simpa [filter_isSize_eq_nil hv, Event.isSize] using hd r hr

theorem marked (h : Ends damage es es') (hes : AllPlaced (fun _ r => r.Fits) es) (hd : ∀ r ∈ damage, r.Fits) {r : Rect}
    (hr : Covers damage r) (hne : ¬r.IsEmpty) : Shown (es.filter Event.isSize) r es' := by
  cases h with
  | none _ hnil =>
    obtain ⟨q, hq, -⟩ := hr
    rw [hnil] at hq
    cases hq
  | last _ now =>
    refine ⟨damage, ?_, hr⟩
    rw [placed_append]
    exact List.mem_append_right _ List.mem_cons_self
  | unread u v previous ended hv =>
    have hprev : ∀ q ∈ previous, q.Fits := hes (u.filter Event.isSize, previous) (by simp [placed_frame])
    refine ⟨Inner.merged previous damage, ?_, ?_⟩
    · simp [placed_frame, filter_isSize_eq_nil hv, Event.isSize]
    · obtain ⟨q, hq, hqr⟩ := hr
      exact (keeps_merged previous damage).covered (List.forall_mem_append.2 ⟨hd, hprev⟩)
        ⟨q, List.mem_append_left _ hq, hqr⟩ hne

theorem shown (h : Ends damage es es') (hes : AllPlaced (fun _ r => r.Fits) es) (hd : ∀ r ∈ damage, r.Fits)
    {sizes : List Event} {r : Rect} (hr : Shown sizes r es) (hne : ¬r.IsEmpty) : Shown sizes r es' := by
  cases h with
  | none => exact hr
  | last _ now =>
    obtain ⟨rects, hmem, hcov⟩ := hr
    refine ⟨rects, ?_, hcov⟩
    rw [placed_append]
    exact List.mem_append_left _ hmem
  | unread u v previous ended hv =>
    have hprev : ∀ q ∈ previous, q.Fits := hes (u.filter Event.isSize, previous) (by simp [placed_frame])
    obtain ⟨rects, hmem, hcov⟩ := hr
    rw [placed_frame, List.mem_append, List.mem_cons] at hmem
    rcases hmem with hmem | hmem | hmem
    · exact ⟨rects, by simp [placed_frame, hmem], hcov⟩
    · cases hmem
      obtain ⟨q, hq, hqr⟩ := hcov
      refine ⟨Inner.merged previous damage, by simp [placed_frame], ?_⟩
      exact (keeps_merged previous damage).covered (List.forall_mem_append.2 ⟨hd, hprev⟩)
        ⟨q, List.mem_append_right _ hq, hqr⟩ hne
    · exact ⟨rects, by simp [placed_frame, hmem], hcov⟩

end Ends

theorem Told.sizes {cs : List Call} {s : Session} (h : Told cs s) :
    s.sequence.filter Event.isSize = (heard cs).filter Event.isSize := by
  have hsize : ∀ es : List Event, (es.filter Event.isOneShot).filter Event.isSize = es.filter Event.isSize := by
    intro es
    rw [List.filter_filter]
    congr 1
    funext e
    cases he : e.isSize with
    | true => simp [Event.isOneShot_of_isSize he]
    | false => rfl
  rw [← hsize, h.oneShots, hsize]

/-- A damaged rectangle is still marked, the size the same, or a frame of its size covers it. -/
def Kept (pre : List Call) (r : Rect) (mid : List Call) (s : Session) : Prop :=
  ((∀ now, Call.frameEnd now ∉ mid) ∧ Covers s.inner.damage r ∧
      s.sequence.filter Event.isSize = (heard pre).filter Event.isSize) ∨
    Shown ((heard pre).filter Event.isSize) r s.sequence

structure Marked (cs : List Call) (s : Session) : Prop where
  fits : ∀ r ∈ s.inner.damage, r.Fits
  frames : AllPlaced (fun _ r => r.Fits) s.sequence
  kept : ∀ pre r mid, cs = pre ++ .damaged r :: mid → ¬r.IsEmpty → Kept pre r mid s

/-- A call that neither marks damage nor ends a frame, and leaves the frames and the damage as they are. -/
theorem Marked.of_same {cs : List Call} {s s' : Session} {c : Call} (h : Marked cs s) (hc : ∀ rect, c ≠ .damaged rect)
    (hn : ∀ now, c ≠ .frameEnd now) (hd : s'.inner.damage = s.inner.damage)
    (hp : ∀ p ∈ placed s.sequence, p ∈ placed s'.sequence)
    (hp' : ∀ p ∈ placed s'.sequence, p ∈ placed s.sequence)
    (hsizes : s.inner.damage ≠ [] → s'.sequence.filter Event.isSize = s.sequence.filter Event.isSize) :
    Marked (cs ++ [c]) s' where
  fits := by rw [hd]; exact h.fits
  frames p hmem := h.frames p (hp' p hmem)
  kept pre r mid heq hne := by
    rcases snoc_eq_append_cons.1 heq with ⟨-, hr, -⟩ | ⟨mid', rfl, rfl⟩
    · exact absurd hr (hc r)
    · rcases h.kept pre r mid' rfl hne with ⟨hend, hcov, hs⟩ | ⟨rects, hmem, hcov⟩
      · have hmarked : s.inner.damage ≠ [] := by
          obtain ⟨q, hq, -⟩ := hcov
          exact List.ne_nil_of_mem hq
        refine .inl ⟨fun now hmem => ?_, by rwa [hd], (hsizes hmarked).trans hs⟩
        rcases List.mem_append.1 hmem with hmem | hmem
        · exact hend now hmem
        · exact hn now (List.mem_singleton.1 hmem).symm
      · exact .inr ⟨rects, hp _ hmem, hcov⟩

theorem Marked.step {cs : List Call} {s s' : Session} {c : Call} (h : Marked cs s) (ht : Told cs s) (hok : Settled s c)
    (hs : s.step c = some s') : Marked (cs ++ [c]) s' := by
  cases Session.step_effect hs with
  | ignores e hc _ _ hi ht' =>
    have hseq : s'.sequence = s.sequence := by simp [Session.sequence, hi, ht']
    exact h.of_same (by rintro rect rfl; cases hc) (by rintro now rfl; cases hc) (by rw [hi]) (by simp [hseq])
      (by simp [hseq]) (by simp [hseq])
  | queues e queue hc _ hd _ hi ht' =>
    have hdrops : Drops e s.sequence (s.taken ++ queue) := hd.append_left s.taken
    have hseq : s'.sequence = s.taken ++ queue ++ [e] := by simp [Session.sequence, hi, ht']
    have hframe : e.isFrame = false := Call.not_isFrame hc
    have hplaced : placed s'.sequence = placed s.sequence := by
      rw [hseq, placed_append, hdrops.placed_eq, placedFrom_cons _ hframe, placedFrom, List.append_nil]
    refine h.of_same (by rintro rect rfl; cases hc) (by rintro now rfl; cases hc) (by simp [hi]) (by simp [hplaced])
      (by simp [hplaced]) fun hmarked => ?_
    have hsize : e.isSize = false := by
      rw [Bool.eq_false_iff]
      exact fun hsize => hmarked (hok.damage_nil hc hsize)
    rw [hseq, List.filter_append, hdrops.filter_eq, List.filter_cons_of_neg (by simp [hsize]), List.filter_nil,
      List.append_nil]
    intro he x hx
    exact Event.not_isSize_of_isState (Event.isState_of_sameKind he hx)
  | marks rect hi ht' =>
    have hseq : s'.sequence = s.sequence := by simp [Session.sequence, hi, ht', Inner.onDamaged]
    have hd : s'.inner.damage = Damage.add s.inner.damage rect := by rw [hi]; rfl
    have hfits : ∀ r ∈ rect :: s.inner.damage, r.Fits := List.forall_mem_cons.2 ⟨hok, h.fits⟩
    have hkeeps := Damage.keeps_add s.inner.damage rect
    constructor
    · rw [hd]
      exact hkeeps.fits hfits
    · rw [hseq]
      exact h.frames
    · intro pre r mid heq hne
      rcases snoc_eq_append_cons.1 heq with ⟨rfl, hr, rfl⟩ | ⟨mid', rfl, rfl⟩
      · cases hr
        refine .inl ⟨fun now => List.not_mem_nil, ?_, by rw [hseq, ht.sizes]⟩
        rw [hd]
        exact hkeeps.covers hfits rect List.mem_cons_self hne
      · rcases h.kept pre r mid' rfl hne with ⟨hend, ⟨q, hq, hqr⟩, hs'⟩ | hshown
        · refine .inl ⟨by simpa using hend, ?_, by rw [hseq, hs']⟩
          rw [hd]
          exact hkeeps.covered hfits ⟨q, List.mem_cons_of_mem _ hq, hqr⟩ hne
        · right
          rwa [hseq]
  | ends now hi ht' =>
    have hends : Ends s.inner.damage s.sequence s'.sequence := by
      rw [Session.sequence, Session.sequence, hi, ht']
      exact (ends_onFrameEnd s.inner now).append_left s.taken
    constructor
    · rw [hi, s.inner.onFrameEnd_damage now]
      exact fun r hr => absurd hr List.not_mem_nil
    · refine hends.allPlaced (fun _ previous rects hp hr => ?_) h.frames h.fits
      exact (keeps_merged previous rects).fits (List.forall_mem_append.2 ⟨hr, hp⟩)
    · intro pre r mid heq hne
      rcases snoc_eq_append_cons.1 heq with ⟨-, hr, -⟩ | ⟨mid', rfl, rfl⟩
      · cases hr
      · rcases h.kept pre r mid' rfl hne with ⟨-, hcov, hs'⟩ | hshown
        · right
          rw [← hs']
          exact hends.marked h.frames h.fits hcov hne
        · exact .inr (hends.shown h.frames h.fits hshown hne)
  | moves hc hm hn hseq _ hi =>
    exact h.of_same hm hn hi.1 (by simp [hseq]) (by simp [hseq]) (by simp [hseq])

/-! ## Where the frames lie -/

/-- The damage is within the size last announced. -/
def Within (s : Session) : Call → Prop
  | .damaged rect => (Rect.mk 0 0 s.inner.width s.inner.height).Holds rect
  | _ => True

instance (s : Session) : DecidablePred (Within s) := fun c => by
  unfold Within
  split <;> infer_instance

/-- In the desktop after some size events, with edges that do not overflow. -/
def Lies (sizes : List Event) (r : Rect) : Prop := r.Fits ∧ (desktop sizes).Holds r

theorem lies_of_keeps {sizes : List Event} {rects rects' : List Rect} (h : Damage.Keeps rects rects')
    (hr : ∀ r ∈ rects, Lies sizes r) : ∀ r ∈ rects', Lies sizes r := by
  have hf : ∀ r ∈ rects, r.Fits := fun r hmem => (hr r hmem).1
  intro r hmem
  exact ⟨h.fits hf r hmem, h.holds hf _ (fun q hq => (hr q hq).2) r hmem⟩

structure Fitting (s : Session) : Prop where
  size : desktop (s.sequence.filter Event.isSize) = ⟨0, 0, s.inner.width, s.inner.height⟩
  damage : ∀ r ∈ s.inner.damage, Lies (s.sequence.filter Event.isSize) r
  frames : AllPlaced Lies s.sequence

/-- What an event says of the size is the desktop after it. -/
theorem desktop_note (s : Inner) (e : Event) {sizes : List Event} (h : desktop sizes = ⟨0, 0, s.width, s.height⟩) :
    desktop (sizes ++ [e].filter Event.isSize) = ⟨0, 0, (s.note e).width, (s.note e).height⟩ := by
  cases e with
  | connected width height => simp [Event.isSize, desktop, Inner.note]
  | desktopSize width height => simp [Event.isSize, desktop, Inner.note]
  | _ => simpa [Event.isSize, Inner.note] using h

theorem Fitting.step {s s' : Session} {c : Call} (h : Fitting s) (hok : Settled s c) (hw : Within s c)
    (hs : s.step c = some s') : Fitting s' := by
  cases Session.step_effect hs with
  | ignores e hc _ _ hi ht =>
    have hseq : s'.sequence = s.sequence := by simp [Session.sequence, hi, ht]
    constructor
    · rw [hseq, hi, h.size]
    · rw [hseq, hi]
      exact h.damage
    · rw [hseq]
      exact h.frames
  | queues e queue hc _ hd _ hi ht =>
    have hdrops : Drops e s.sequence (s.taken ++ queue) := hd.append_left s.taken
    have hseq : s'.sequence = s.taken ++ queue ++ [e] := by simp [Session.sequence, hi, ht]
    have hsizes : s'.sequence.filter Event.isSize = s.sequence.filter Event.isSize ++ [e].filter Event.isSize := by
      rw [hseq, List.filter_append, hdrops.filter_eq]
      intro he x hx
      exact Event.not_isSize_of_isState (Event.isState_of_sameKind he hx)
    constructor
    · rw [hsizes, hi]
      exact desktop_note s.inner e h.size
    · rw [hsizes, hi, Inner.note_damage]
      cases he : e.isSize with
      | true => simp [hok.damage_nil hc he]
      | false => simpa [he] using h.damage
    · rw [hseq]
      intro p hp
      rw [placed_append, hdrops.placed_eq, placedFrom_cons _ (Call.not_isFrame hc), placedFrom, List.append_nil] at hp
      exact h.frames p hp
  | marks rect hi ht =>
    have hseq : s'.sequence = s.sequence := by simp [Session.sequence, hi, ht, Inner.onDamaged]
    have hrect : Lies (s.sequence.filter Event.isSize) rect := ⟨hok, by rw [h.size]; exact hw⟩
    constructor
    · rw [hseq, hi, h.size]
      rfl
    · rw [hseq, hi]
      exact lies_of_keeps (Damage.keeps_add s.inner.damage rect) (List.forall_mem_cons.2 ⟨hrect, h.damage⟩)
    · rw [hseq]
      exact h.frames
  | ends now hi ht =>
    have hends : Ends s.inner.damage s.sequence s'.sequence := by
      rw [Session.sequence, Session.sequence, hi, ht]
      exact (ends_onFrameEnd s.inner now).append_left s.taken
    have hfacts := s.inner.onFrameEnd_facts now
    constructor
    · rw [hends.filter_eq fun _ _ => rfl, h.size, hi, hfacts.1, hfacts.2.1]
    · rw [hi, s.inner.onFrameEnd_damage now]
      exact fun r hr => absurd hr List.not_mem_nil
    · refine hends.allPlaced (fun sizes previous rects hp hr => ?_) h.frames h.damage
      exact lies_of_keeps (keeps_merged previous rects) (List.forall_mem_append.2 ⟨hr, hp⟩)
  | moves hc hm hn hseq _ hi =>
    constructor
    · rw [hseq, hi.2.1, hi.2.2.1, h.size]
    · rw [hseq, hi.1]
      exact h.damage
    · rw [hseq]
      exact h.frames

/-! ## Every run -/

/-- Every rectangle with pixels in it that is damaged while a size is in force, and followed by a frame's
end, is covered by a frame that comes after that size event and before the next. -/
def Covered (cs : List Call) (s : Session) : Prop :=
  ∀ pre r mid now post, cs = pre ++ .damaged r :: (mid ++ .frameEnd now :: post) → ¬r.IsEmpty →
    (heard pre).filter Event.isSize ≠ [] → Shown ((heard pre).filter Event.isSize) r s.sequence

/-- Every rectangle of a frame lies in the desktop of the frame's place. -/
def Inside (s : Session) : Prop := AllPlaced (fun sizes r => (desktop sizes).Holds r) s.sequence

theorem told_run {cs : List Call} {s : Session} (hr : run Session.step {} cs = some s)
    (hm : Meets Session.step Settled {} cs) : Told cs s ∧ Marked cs s := by
  refine trace_inv (fun cs s => Told cs s ∧ Marked cs s) ⟨?_, ?_⟩ ?_ hm hr
  · exact ⟨by simp [heard, reported], rfl, fun _ _ => rfl, fun _ _ => Nat.zero_le _, List.Pairwise.nil⟩
  · refine ⟨fun r hr => absurd hr List.not_mem_nil, fun p hp => absurd hp List.not_mem_nil, ?_⟩
    intro pre r mid heq
    exact absurd heq.symm (List.append_ne_nil_of_right_ne_nil _ (List.cons_ne_nil _ _))
  · intro cs s c s' h hok hs
    exact ⟨h.1.step hok hs, h.2.step h.1 hok hs⟩

theorem fitting_run {cs : List Call} {s : Session} (hr : run Session.step {} cs = some s)
    (hm : Meets Session.step Settled {} cs) (hw : Meets Session.step Within {} cs) : Fitting s := by
  refine trace_inv (fun _ s => Fitting s) ⟨rfl, fun r hr => absurd hr List.not_mem_nil, fun p hp => absurd hp List.not_mem_nil⟩
    (fun _ s c s' h hok hs => h.step hok.1 hok.2 hs) (hm.and hw) hr

/-- Of the state events of a kind at most one waits, and it is the latest. -/
theorem Told.waiting {cs : List Call} {s : Session} (h : Told cs s) {e : Event} (hq : e ∈ s.inner.queue)
    (he : e.isState = true) : lastOf e (heard cs) = some e := by
  have hmem : e ∈ s.inner.queue.filter e.sameKind := List.mem_filter.2 ⟨hq, Event.sameKind_refl e⟩
  obtain ⟨x, hx⟩ := List.length_eq_one_iff.1 (Nat.le_antisymm (h.unread e he) (List.length_pos_of_mem hmem))
  rw [hx, List.mem_singleton] at hmem
  rw [← h.latest e he, lastOf, Session.sequence, List.filter_append, hx, ← hmem]
  simp

/-- The window misses nothing, whatever the order of the calls: damage is shown at its size, every occurrence
is there once and in order, of a kind of state the last is the latest, and nothing late follows the end. -/
theorem loses_nothing {cs : List Call} {s : Session} (hr : run Session.step {} cs = some s)
    (hm : Meets Session.step Settled {} cs) :
    Covered cs s ∧ (Meets Session.step Within {} cs → Inside s) ∧
      s.sequence.filter Event.isOneShot = (reported cs).filter Event.isOneShot ∧
      (∀ e : Event, e.isState = true → lastOf e s.sequence = lastOf e (heard cs)) ∧
      (∀ e ∈ s.inner.queue, e.isState = true → lastOf e (heard cs) = some e) ∧ Quiet s.sequence := by
  obtain ⟨htold, hmarked⟩ := told_run hr hm
  refine ⟨?_, ?_, ?_, htold.latest, fun e hq he => htold.waiting hq he, htold.quiet⟩
  · intro pre r mid now post heq hne _
    rcases hmarked.kept pre r _ heq hne with ⟨hend, -⟩ | hshown
    · exact absurd (List.mem_append_right _ List.mem_cons_self) (hend now)
    · exact hshown
  · intro hw p hp r hmem
    exact ((fitting_run hr hm hw).frames p hp r hmem).2
  · rw [htold.oneShots, heard_filter_isOneShot]

theorem loses_nothing_resized :
    let cs := [.report (.connected 100 100), .damaged ⟨90, 90, 10, 10⟩, .frameEnd 1, .report (.status none), .bell,
      .damaged ⟨0, 0, 5, 5⟩, .ring, .frameEnd 2, .take, .report (.status (some "")), .report (.desktopSize 50 50),
      .damaged ⟨0, 0, 5, 5⟩, .frameEnd 3, .report (.closed ""), .report (.status none), .takeAll]
    ∃ s, run Session.step {} cs = some s ∧
      s.taken = [.connected 100 100, .frame [⟨90, 90, 10, 10⟩, ⟨0, 0, 5, 5⟩] 1, .bell, .status none, .desktopSize 50 50,
        .frame [⟨0, 0, 5, 5⟩] 3, .closed ""] ∧
      Covered cs s ∧ Inside s ∧ Quiet s.sequence := by
  refine ⟨_, rfl, by decide +kernel, ?_⟩
  have h := @loses_nothing [.report (.connected 100 100), .damaged ⟨90, 90, 10, 10⟩, .frameEnd 1,
    .report (.status none), .bell, .damaged ⟨0, 0, 5, 5⟩, .ring, .frameEnd 2, .take, .report (.status (some "")),
    .report (.desktopSize 50 50), .damaged ⟨0, 0, 5, 5⟩, .frameEnd 3, .report (.closed ""), .report (.status none),
    .takeAll] _ rfl (by decide +kernel)
  exact ⟨h.1, h.2.1 (by decide +kernel), h.2.2.2.2.2⟩

/-- The size changes while a rectangle of the old one is marked, which it was within. The frame comes after
the new size, and the rectangle is outside that. -/
theorem stale_frame :
    let cs := [.report (.connected 100 100), .damaged ⟨90, 90, 10, 10⟩, .report (.desktopSize 50 50), .frameEnd 1, .takeAll]
    ∃ s, run Session.step {} cs = some s ∧ Meets Session.step Within {} cs ∧
      s.taken = [.connected 100 100, .desktopSize 50 50, .frame [⟨90, 90, 10, 10⟩] 1] ∧ ¬Covered cs s ∧ ¬Inside s := by
  refine ⟨_, rfl, by decide +kernel, by decide +kernel, ?_, ?_⟩
  · intro h
    obtain ⟨rects, hmem, -⟩ := h [.report (.connected 100 100)] ⟨90, 90, 10, 10⟩ [.report (.desktopSize 50 50)] 1 [.takeAll]
      rfl (by decide) (by decide)
    cases (List.mem_singleton (b := ([Event.connected 100 100, .desktopSize 50 50], [Rect.mk 90 90 10 10]))).1 hmem
  · intro h
    have hlies := h ([.connected 100 100, .desktopSize 50 50], [⟨90, 90, 10, 10⟩]) (by decide) ⟨90, 90, 10, 10⟩ (by decide)
    revert hlies
    decide

end Vento.Api
