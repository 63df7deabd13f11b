import Mathlib.Data.List.Induction
import Vento.Linux.Clipboard
/-!
# Every read of the clipboard is answered

A read that is asked for while another is going waits for it and takes over its reasons, and so do answers that the window has
not taken. `reads_answered`: over every run, a read is still going, or its reason was answered by a conversation that began no
earlier than it was asked, whatever the owner does; and it ends by its deadline.
-/

namespace Vento.Linux.Clipboard

open Vento.Lib

inductive Reason
  | offer
  | paste
deriving DecidableEq

def Why.has (w : Why) : Reason → Bool
  | .offer => w.offer
  | .paste => w.paste

@[simp]
theorem Why.has_and (a b : Why) (r : Reason) : (a.and b).has r = (a.has r || b.has r) := by cases r <;> rfl

namespace Worker

/-- The reason of a read that was asked for in step `i` is of a read that is going or queued, or was answered by a conversation
that began no earlier. -/
def Covered (reason : Reason) (i : Nat) (w : Worker) : Prop :=
  (∃ rd, w.reading = some rd ∧
    ((rd.why.has reason = true ∧ i ≤ rd.began) ∨ ∃ q, w.queued = some q ∧ q.why.has reason = true)) ∨
  ∃ x ∈ w.answers, x.why.has reason = true ∧ i ≤ x.began

/-- The latest of the answers, for the reasons of all of them. -/
def latest (answers : List Answered) : Option (Option Str × Why) :=
  answers.foldl (fun s x => some (x.text, s.elim x.why fun s => x.why.and s.2)) none

/-- What waits for the window is what was answered since it last took it. -/
def Waits (w : Worker) : Prop := w.taken ≤ w.answers.length ∧ w.slot = latest (w.answers.drop w.taken)

/-- Reads are timed from when they were asked for. -/
def Timely (times : List Nat) (w : Worker) : Prop :=
  (∀ rd, w.reading = some rd → ∃ t ∈ times, rd.deadline = t + readDeadline) ∧ ∀ q, w.queued = some q → q.time ∈ times

/-- What each operation keeps. -/
structure Keeps (w w' : Worker) : Prop where
  clock : w'.clock = w.clock
  waits : w.Waits → w'.Waits
  timely : ∀ times, w.Timely times → w'.Timely times
  covered : ∀ reason i, i ≤ w.clock → w.Covered reason i → w'.Covered reason i

theorem Keeps.refl (w : Worker) : Keeps w w := ⟨rfl, id, fun _ => id, fun _ _ _ => id⟩

theorem Keeps.trans {u v w : Worker} (h : Keeps u v) (h' : Keeps v w) : Keeps u w :=
  ⟨h'.clock.trans h.clock, fun hw => h'.waits (h.waits hw), fun times ht => h'.timely times (h.timely times ht),
    fun reason i hi hc => h'.covered reason i (by rw [h.clock]; exact hi) (h.covered reason i hi hc)⟩

/-- What a read is for, whatever step it is in. -/
def purpose (r : Reading) : Why × Nat × Nat := (r.why, r.deadline, r.began)

/-- An operation that answers nothing, nor starts or ends a read. -/
structure Same (w w' : Worker) : Prop where
  reading : w'.reading.map purpose = w.reading.map purpose
  queued : w'.queued = w.queued
  slot : w'.slot = w.slot
  answers : w'.answers = w.answers
  taken : w'.taken = w.taken
  clock : w'.clock = w.clock

theorem Same.refl (w : Worker) : Same w w := ⟨rfl, rfl, rfl, rfl, rfl, rfl⟩

theorem Same.trans {u v w : Worker} (h : Same u v) (h' : Same v w) : Same u w :=
  ⟨h'.reading.trans h.reading, h'.queued.trans h.queued, h'.slot.trans h.slot, h'.answers.trans h.answers,
    h'.taken.trans h.taken, h'.clock.trans h.clock⟩

/-- A read that goes on is for what it was. -/
theorem Same.exists_reading {w w' : Worker} (h : Same w w') {rd : Reading} (hr : w.reading = some rd) :
    ∃ rd', w'.reading = some rd' ∧ rd'.why = rd.why ∧ rd'.deadline = rd.deadline ∧ rd'.began = rd.began := by
  have hmap := h.reading
  rw [hr, Option.map_some] at hmap
  obtain ⟨rd', hr', hp⟩ := Option.map_eq_some_iff.1 hmap
  simp only [purpose, Prod.mk.injEq] at hp
  exact ⟨rd', hr', hp⟩

theorem Same.keeps {w w' : Worker} (h : Same w w') : Keeps w w' where
  clock := h.clock
  waits hw := by
    unfold Waits at hw ⊢
    rw [h.taken, h.answers, h.slot]
    exact hw
  timely times ht := by
    refine ⟨fun rd' hr' => ?_, by rw [h.queued]; exact ht.2⟩
    cases hr : w.reading with
    | none =>
      have hmap := h.reading
      rw [hr, hr'] at hmap
      cases hmap
    | some rd =>
      obtain ⟨rd'', hr'', -, hd, -⟩ := h.exists_reading hr
      cases hr'.symm.trans hr''
      rw [hd]
      exact ht.1 rd hr
  covered reason i _ hc := by
    rcases hc with ⟨rd, hr, hpending⟩ | ⟨x, hx, hanswered⟩
    · obtain ⟨rd', hr', hw, -, hb⟩ := h.exists_reading hr
      refine .inl ⟨rd', hr', ?_⟩
      rw [hw, hb, h.queued]
      exact hpending
    · exact .inr ⟨x, by rw [h.answers]; exact hx, hanswered⟩

section Operations

variable (A : Atoms) (w : Worker)

theorem same_request (r : Request) : Same w (w.request r) := ⟨rfl, rfl, rfl, rfl, rfl, rfl⟩

theorem same_sending (sending : List Sending) : Same w { w with sending } := ⟨rfl, rfl, rfl, rfl, rfl, rfl⟩

theorem same_setStep (step : Step) : Same w (w.setStep step) := by
  refine ⟨?_, rfl, rfl, rfl, rfl, rfl⟩
  unfold setStep
  cases w.reading <;> rfl

theorem same_convert (target : Name) : Same w (w.convert A target) := by
  refine ⟨?_, rfl, rfl, rfl, rfl, rfl⟩
  unfold convert request
  cases w.reading <;> rfl

theorem same_takeProperty (r : Reply) : Same w (w.takeProperty A r).1 := by
  unfold takeProperty
  dsimp only
  split
  · exact same_request _ _
  · split
    · exact (same_request _ _).trans (same_request _ _)
    · split <;> exact same_request _ _

/-- An answer is one more. -/
theorem answer_waits (began : Nat) (why : Why) (text : Option Str) (h : w.Waits) : (w.answer began why text).Waits := by
  obtain ⟨hle, hslot⟩ := h
  refine ⟨by simp only [answer, List.length_append]; omega, ?_⟩
  unfold answer
  dsimp only
  rw [List.drop_append_of_le_length hle, latest, List.foldl_append, ← latest, ← hslot]
  rfl

theorem answer_covered (began : Nat) (why : Why) (text : Option Str) {reason : Reason} {i : Nat} (h : w.Covered reason i) :
    (w.answer began why text).Covered reason i := by
  rcases h with h | ⟨x, hx, hanswered⟩
  · exact .inl h
  · exact .inr ⟨x, List.mem_append_left _ hx, hanswered⟩

/-- What starting a read does, with none going. -/
structure Starts (asked : Asked) (w w' : Worker) : Prop where
  clock : w'.clock = w.clock
  waits : w.Waits → w'.Waits
  timely : ∀ times, asked.time ∈ times → w.Timely times → w'.Timely times
  covered : ∀ reason i, w.Covered reason i → w'.Covered reason i
  asked : ∀ reason i, i ≤ w.clock → asked.why.has reason = true → w'.Covered reason i

theorem startRead_starts (asked : Asked) (r : Reply) {w : Worker} (hnone : w.reading = none) :
    Starts asked w (w.startRead A asked r) := by
  have hanswer : ∀ text, Starts asked w (w.answer w.clock asked.why text) := by
    intro text
    refine ⟨rfl, answer_waits _ _ _ _, fun _ _ ht => ht, fun _ _ => answer_covered _ _ _ _, fun reason i hi hw => ?_⟩
    exact .inr ⟨_, List.mem_append_right _ (List.mem_singleton_self _), hw, hi⟩
  unfold startRead
  split
  · exact hanswer _
  · split
    · exact hanswer _
    · generalize hu : ({ w with reading := some ⟨asked.why, asked.time + readDeadline, .targets, 0, w.clock⟩ } : Worker) = u
      have hsame := same_convert A u .targets
      have hread : u.reading = some ⟨asked.why, asked.time + readDeadline, .targets, 0, w.clock⟩ := by rw [← hu]
      have hclock : u.clock = w.clock := by rw [← hu]
      refine ⟨hsame.clock.trans hclock, fun hw => hsame.keeps.waits ?_, fun times hmem ht => hsame.keeps.timely times ⟨?_, ?_⟩, ?_, ?_⟩
      · rw [← hu]
        exact hw
      · intro rd hr
        cases hread.symm.trans hr
        exact ⟨asked.time, hmem, rfl⟩
      · rw [← hu]
        exact ht.2
      · intro reason i hc
        rcases hc with ⟨rd, hr, -⟩ | ⟨x, hx, hanswered⟩
        · rw [hnone] at hr
          cases hr
        · exact .inr ⟨x, by rw [hsame.answers, ← hu]; exact hx, hanswered⟩
      · intro reason i hi hw
        obtain ⟨rd', hr', hwhy, -, hbegan⟩ := hsame.exists_reading hread
        exact .inl ⟨rd', hr', .inl ⟨by rw [hwhy]; exact hw, by rw [hbegan]; exact hi⟩⟩

/-- A read that ends is answered, or the one that is queued takes over its reasons. -/
theorem finish_keeps (text : Option Str) (r : Reply) : Keeps w (w.finish A text r) := by
  unfold finish
  cases hr : w.reading with
  | none => exact .refl w
  | some rd =>
    dsimp only
    generalize hu : ({ w with reading := none } : Worker).request (.deleteProperty (A.get .ventoClipboard)) = u
    have hnone : u.reading = none := by rw [← hu]; rfl
    have hqueued : u.queued = w.queued := by rw [← hu]; rfl
    have hclock : u.clock = w.clock := by rw [← hu]; rfl
    have hanswers : u.answers = w.answers := by rw [← hu]; rfl
    have hwaits : w.Waits → u.Waits := by rw [← hu]; exact id
    have hold : ∀ {reason i}, w.Covered reason i → u.Covered reason i ∨ (rd.why.has reason = true ∧ i ≤ rd.began) ∨
        ∃ q, w.queued = some q ∧ q.why.has reason = true := by
      rintro reason i (⟨rd', hr', hpending⟩ | ⟨x, hx, hanswered⟩)
      · cases hr.symm.trans hr'
        exact .inr hpending
      · exact .inl (.inr ⟨x, by rw [hanswers]; exact hx, hanswered⟩)
    cases hq : w.queued with
    | none =>
      rw [hqueued, hq]
      dsimp only
      refine ⟨hclock, fun hw => answer_waits _ _ _ _ (hwaits hw), fun times ht => ⟨fun rd' hr' => ?_, fun q hq' => ?_⟩,
        fun reason i _ hc => ?_⟩
      · rw [answer, hnone] at hr'
        cases hr'
      · rw [answer, hqueued, hq] at hq'
        cases hq'
      · rcases hold hc with h | ⟨hwhy, hbegan⟩ | ⟨q, hq', -⟩
        · exact answer_covered _ _ _ _ h
        · exact .inr ⟨_, List.mem_append_right _ (List.mem_singleton_self _), hwhy, hbegan⟩
        · rw [hq] at hq'
          cases hq'
    | some q =>
      rw [hqueued, hq]
      dsimp only
      have hstart := startRead_starts A ⟨q.why.and rd.why, q.time⟩ r (w := { u with queued := none }) hnone
      refine ⟨hstart.clock.trans hclock, fun hw => hstart.waits (hwaits hw), fun times ht => ?_, fun reason i hi hc => ?_⟩
      · refine hstart.timely times (ht.2 q hq) ⟨fun rd' hr' => ?_, fun q' hq' => by cases hq'⟩
        rw [hnone] at hr'
        cases hr'
      · rcases hold hc with h | ⟨hwhy, -⟩ | ⟨q', hq', hwhy⟩
        · rcases h with ⟨rd', hr', -⟩ | h
          · rw [hnone] at hr'
            cases hr'
          · exact hstart.covered reason i (.inr h)
        · refine hstart.asked reason i (by rw [hclock]; exact hi) ?_
          simp [hwhy]
        · cases hq.symm.trans hq'
          refine hstart.asked reason i (by rw [hclock]; exact hi) ?_
          simp [hwhy]

theorem blind_keeps (i : Nat) (r : Reply) : Keeps w (w.blind A i r) := by
  unfold blind
  split
  · exact ((same_setStep _ _).trans (same_convert _ _ _)).keeps
  · exact finish_keeps _ _ _ _

theorem received_keeps (r : Reply) : Keeps w (w.received A r) := by
  have htake := (same_takeProperty A w r).keeps
  unfold received
  split
  · next u type bytes hu =>
    rw [hu] at htake
    split
    · exact htake.trans (same_setStep _ _).keeps
    · exact htake.trans (finish_keeps _ _ _ _)
  · next u hu =>
    rw [hu] at htake
    exact htake.trans (finish_keeps _ _ _ _)

theorem selectionNotify_keeps (requestor selection target property : Nat) (r : Reply) :
    Keeps w (w.selectionNotify A requestor selection target property r) := by
  unfold selectionNotify
  split
  · exact .refl w
  · split
    · exact (same_request _ _).keeps
    · split
      · exact .refl w
      · split
        · split
          · exact blind_keeps _ _ _ _
          · have htake := (same_takeProperty A w r).keeps
            dsimp only
            split
            · exact htake.trans ((same_setStep _ _).trans (same_convert _ _ _)).keeps
            · exact htake.trans (finish_keeps _ _ _ _)
        · split
          · exact blind_keeps _ _ _ _
          · exact received_keeps _ _ _
        · split
          · exact finish_keeps _ _ _ _
          · exact received_keeps _ _ _
        · exact .refl w

theorem incomingChunk_keeps (r : Reply) : Keeps w (w.incomingChunk A r) := by
  have htake := (same_takeProperty A w r).keeps
  unfold incomingChunk
  split
  · next u hu =>
    rw [hu] at htake
    exact htake
  · next u type bytes hu =>
    rw [hu] at htake
    split
    · split
      · exact htake.trans (finish_keeps _ _ _ _)
      · dsimp only
        split
        · exact htake.trans ((same_setStep _ _).keeps.trans (finish_keeps _ _ _ _))
        · exact htake.trans (same_setStep _ _).keeps
    · exact htake

theorem same_claim (time : Nat) (r : Reply) : Same w (w.claim A time r) := by
  unfold claim
  split
  · exact .refl w
  · exact ⟨rfl, rfl, rfl, rfl, rfl, rfl⟩

theorem same_convertFor (e : SelectionRequest) (property : Nat) (r : Reply) : Same w (w.convertFor A e property r).1 := by
  unfold convertFor
  split
  · exact .refl w
  · split
    · exact .refl w
    · split
      · exact same_request _ _
      · split
        · exact same_request _ _
        · split
          · exact .refl w
          · dsimp only
            split
            · exact same_request _ _
            · split <;> exact ⟨rfl, rfl, rfl, rfl, rfl, rfl⟩

theorem same_forget (requestor : Nat) : Same w (w.forget requestor) := by
  unfold forget
  split
  · exact .refl w
  · exact same_request _ _

theorem same_outgoingChunk (window atom : Nat) (r : Reply) : Same w (w.outgoingChunk window atom r) := by
  unfold outgoingChunk
  split
  · exact .refl w
  · split
    · exact .refl w
    · split
      · exact (same_sending _ _).trans (same_forget _ _)
      · exact ⟨rfl, rfl, rfl, rfl, rfl, rfl⟩

theorem same_handOff (r : Reply) : Same w (w.handOff A r) := by
  unfold handOff
  split
  · split <;> exact ⟨rfl, rfl, rfl, rfl, rfl, rfl⟩
  · exact ⟨rfl, rfl, rfl, rfl, rfl, rfl⟩

theorem event_keeps (e : Event) (r : Reply) : Keeps w (w.event A e r) := by
  cases e with
  | selectionNotify requestor selection target property =>
    rw [event]
    split
    · exact Same.keeps ⟨rfl, rfl, rfl, rfl, rfl, rfl⟩
    · exact selectionNotify_keeps _ _ _ _ _ _ _
  | selectionRequest e => exact ((same_convertFor _ _ _ _ _).trans (same_request _ _)).keeps
  | selectionClear selection time =>
    rw [event]
    split
    · exact Same.keeps ⟨rfl, rfl, rfl, rfl, rfl, rfl⟩
    · exact .refl w
  | propertyNotify window atom time deleted =>
    rw [event]
    split
    · split
      · exact (same_claim _ _ _ _).keeps
      · split
        · split
          · exact incomingChunk_keeps _ _ _
          · exact .refl w
        · exact .refl w
    · split
      · exact (same_outgoingChunk _ _ _ _).keeps
      · exact .refl w

theorem same_foldl_forget (requestors : List Nat) : Same w (requestors.foldl (fun w requestor => w.forget requestor) w) := by
  induction requestors generalizing w with
  | nil => exact .refl w
  | cons requestor requestors ih => exact (same_forget _ _).trans (ih _)

/-- What is left of the transfers has nothing to do with the read. -/
theorem same_expire (r : Reply) :
    Same (if w.reading.any fun reading => reading.deadline ≤ r.now then w.finish A none r else w) (w.expire A r) := by
  unfold expire
  exact (same_sending _ _).trans (same_foldl_forget _ _)

theorem expire_keeps (r : Reply) : Keeps w (w.expire A r) := by
  refine Keeps.trans ?_ (same_expire A w r).keeps
  split
  · exact finish_keeps _ _ _ _
  · exact .refl w

end Operations

/-! ## Runs -/

/-- A read for the reason, asked for at the time. -/
def Asks (a : Act × Reply) (reason : Reason) (time : Nat) : Prop :=
  ∃ asked, a.1 = .command (.read asked) ∧ asked.why.has reason = true ∧ asked.time = time

/-- When the reads were asked for. -/
def timesOf (as : List (Act × Reply)) : List Nat :=
  as.filterMap fun a => match a.1 with | .command (.read asked) => some asked.time | _ => none

/-- What holds after a run. -/
structure Answering (as : List (Act × Reply)) (w : Worker) : Prop where
  clock : w.clock = as.length
  waits : w.Waits
  timely : w.Timely (timesOf as)
  covered : ∀ i a reason time, as[i]? = some a → Asks a reason time → w.Covered reason i

theorem answering_new (window maximumRequestBytes : Nat) : Answering [] (new window maximumRequestBytes) where
  clock := rfl
  waits := ⟨Nat.le_refl _, rfl⟩
  timely := by
    constructor
    · intro rd hr
      cases hr
    · intro q hq
      cases hq
  covered i a reason time ha := by cases ha

section Run

variable {A : Atoms} {as : List (Act × Reply)} {w : Worker}

/-- An operation that asks for nothing. -/
theorem Answering.keep {w' : Worker} (h : Answering as w) (hk : Keeps w w') {a : Act × Reply} (hno : ∀ reason time, ¬Asks a reason time)
    (htimes : timesOf (as ++ [a]) = timesOf as) : Answering (as ++ [a]) { w' with clock := w.clock + 1 } where
  clock := by rw [h.clock, List.length_append, List.length_singleton]
  waits := hk.waits h.waits
  timely := by
    rw [htimes]
    exact hk.timely _ h.timely
  covered i b reason time hb hasks := by
    rcases Nat.lt_or_ge i as.length with hi | hi
    · rw [List.getElem?_append_left hi] at hb
      exact hk.covered reason i (by rw [h.clock]; omega) (h.covered i b reason time hb hasks)
    · rw [List.getElem?_append_right hi, List.getElem?_singleton] at hb
      split at hb
      · cases hb
        exact absurd hasks (hno reason time)
      · cases hb

/-- A read goes on, with one more reason for the next. -/
theorem queue_covered {reason : Reason} {i : Nat} (asked : Asked) (h : w.Covered reason i) :
    ({ w with queued := fold w.queued asked } : Worker).Covered reason i := by
  rcases h with ⟨rd, hr, hpending | ⟨q, hq, hwhy⟩⟩ | h
  · exact .inl ⟨rd, hr, .inl hpending⟩
  · refine .inl ⟨rd, hr, .inr ⟨_, rfl, ?_⟩⟩
    simp [hq, Asked.and, hwhy]
  · exact .inr h

theorem Answering.read (h : Answering as w) (asked : Asked) (r : Reply) :
    Answering (as ++ [(.command (.read asked), r)]) (step A w (.command (.read asked), r)) := by
  have htimes : timesOf (as ++ [(.command (.read asked), r)]) = timesOf as ++ [asked.time] := List.filterMap_append
  have hmono : w.Timely (timesOf as ++ [asked.time]) :=
    ⟨fun rd hr => (h.timely.1 rd hr).imp fun t ht => ⟨List.mem_append_left _ ht.1, ht.2⟩,
      fun q hq => List.mem_append_left _ (h.timely.2 q hq)⟩
  have hmem : asked.time ∈ timesOf as ++ [asked.time] := List.mem_append_right _ (List.mem_singleton_self _)
  have hcovered : ∀ {w' : Worker}, (∀ reason i, w.Covered reason i → w'.Covered reason i) →
      (∀ reason i, i ≤ w.clock → asked.why.has reason = true → w'.Covered reason i) →
      ∀ i a reason time, (as ++ [(.command (.read asked), r)])[i]? = some a → Asks a reason time → w'.Covered reason i := by
    intro w' hold hnew i b reason time hb hasks
    rcases Nat.lt_or_ge i as.length with hi | hi
    · rw [List.getElem?_append_left hi] at hb
      exact hold reason i (h.covered i b reason time hb hasks)
    · rw [List.getElem?_append_right hi, List.getElem?_singleton] at hb
      split at hb
      · cases hb
        obtain ⟨asked', heq, hwhy, -⟩ := hasks
        cases heq
        exact hnew reason i (by rw [h.clock]; omega) hwhy
      · cases hb
  cases hr : w.reading with
  | some rd =>
    have hstep : step A w (.command (.read asked), r) = { w with queued := fold w.queued asked, clock := w.clock + 1 } := by
      simp only [step, command, hr, Option.isSome_some, if_true]
    rw [hstep]
    refine ⟨by rw [h.clock, List.length_append, List.length_singleton], h.waits, ?_, ?_⟩
    · rw [htimes]
      refine ⟨hmono.1, fun q hq => ?_⟩
      cases hq
      cases hq' : w.queued with
      | none => exact hmem
      | some q =>
        simp only [Option.elim_some, Asked.and]
        rcases Nat.le_total q.time asked.time with hle | hle
        · rw [Nat.max_eq_right hle]
          exact hmem
        · rw [Nat.max_eq_left hle]
          exact hmono.2 q hq'
    · refine hcovered (fun reason i => queue_covered asked) fun reason i hi hwhy => .inl ⟨rd, hr, .inr ⟨_, rfl, ?_⟩⟩
      cases hq : w.queued <;> simp [Asked.and, hwhy]
  | none =>
    have hstart := startRead_starts A asked r hr
    have hstep : step A w (.command (.read asked), r) = { w.startRead A asked r with clock := w.clock + 1 } := by
      simp only [step, command, hr, Option.isSome_none, Bool.false_eq_true, if_false]
    rw [hstep]
    exact ⟨by rw [h.clock, List.length_append, List.length_singleton], hstart.waits h.waits, by
      rw [htimes]
      exact hstart.timely _ hmem hmono, hcovered hstart.covered hstart.asked⟩

theorem Answering.step (h : Answering as w) (a : Act × Reply) : Answering (as ++ [a]) (step A w a) := by
  obtain ⟨act, r⟩ := a
  have hnil : ∀ act : Act, (∀ asked, act ≠ .command (.read asked)) → (∀ reason time, ¬Asks (act, r) reason time) ∧
      timesOf (as ++ [(act, r)]) = timesOf as := by
    intro act hne
    refine ⟨?_, ?_⟩
    · rintro reason time ⟨asked, heq, -⟩
      exact hne asked heq
    rw [timesOf, List.filterMap_append, List.filterMap_cons_none, List.filterMap_nil, List.append_nil, timesOf]
    split
    · next asked heq => exact absurd heq (hne asked)
    · rfl
  cases act with
  | event e =>
    obtain ⟨hno, htimes⟩ := hnil (.event e) nofun
    exact h.keep (event_keeps A w e r) hno htimes
  | expire =>
    obtain ⟨hno, htimes⟩ := hnil (.expire) nofun
    exact h.keep (expire_keeps A w r) hno htimes
  | take =>
    obtain ⟨hno, htimes⟩ := hnil (.take) nofun
    have hwaits : w.take.Waits := ⟨Nat.le_refl _, by rw [take, List.drop_length]; rfl⟩
    have hk : Keeps w w.take := ⟨rfl, fun _ => hwaits, fun _ ht => ht, fun _ _ _ hc => hc⟩
    exact h.keep hk hno htimes
  | command c =>
    cases c with
    | read asked => exact h.read asked r
    | set text =>
      obtain ⟨hno, htimes⟩ := hnil (.command (.set text)) nofun
      have hsame : Same w (w.command A (.set text) r) := ⟨rfl, rfl, rfl, rfl, rfl, rfl⟩
      exact h.keep hsame.keeps hno htimes
    | quit =>
      obtain ⟨hno, htimes⟩ := hnil (.command .quit) nofun
      have hsame : Same w (w.command A .quit r) := same_handOff A w r
      exact h.keep hsame.keeps hno htimes

theorem answering_run (window maximumRequestBytes : Nat) (as : List (Act × Reply)) :
    Answering as (as.foldl (Worker.step A) (new window maximumRequestBytes)) := by
  induction as using List.reverseRecOn with
  | nil => exact answering_new _ _
  | append_singleton as a ih =>
    rw [List.foldl_append]
    exact ih.step a

/-- A read that ends leaves none queued, and none going where none was. -/
theorem finish_queued (text : Option Str) (r : Reply) (hr : w.reading ≠ none) :
    (w.finish A text r).queued = none ∧ (w.queued = none → (w.finish A text r).reading = none) := by
  unfold finish
  cases hrd : w.reading with
  | none => exact absurd hrd hr
  | some rd =>
    cases hq : w.queued with
    | none =>
      simp only [request]
      exact ⟨rfl, fun _ => rfl⟩
    | some q =>
      simp only [request]
      refine ⟨?_, fun h => by cases h⟩
      unfold startRead
      split
      · rfl
      · split <;> rfl

theorem Same.reading_none {w' : Worker} (h : Same w w') (hr : w.reading = none) : w'.reading = none := by
  have hmap := h.reading
  rw [hr, Option.map_none, Option.map_eq_none_iff] at hmap
  exact hmap

/-- Once its deadline has come, a look at it ends a read. -/
theorem expire_reading {times : List Nat} {r : Reply} (ht : w.Timely times) (hdue : ∀ t ∈ times, t + readDeadline ≤ r.now) :
    (w.reading = none → (w.expire A r).reading = none) ∧
      (w.reading ≠ none → (w.expire A r).queued = none ∧ (w.queued = none → (w.expire A r).reading = none)) := by
  have hsame := same_expire A w r
  constructor
  · intro hr
    rw [hr] at hsame
    exact hsame.reading_none hr
  · intro hr
    obtain ⟨rd, hrd⟩ := Option.ne_none_iff_exists'.1 hr
    obtain ⟨t, hmem, hd⟩ := ht.1 rd hrd
    have hpast : rd.deadline ≤ r.now := hd ▸ hdue t hmem
    have hif : (w.reading.any fun reading => reading.deadline ≤ r.now) = true := by
      rw [hrd]
      simp [hpast]
    rw [if_pos hif] at hsame
    obtain ⟨hqueued, hnone⟩ := finish_queued (A := A) none r hr
    exact ⟨hsame.queued.trans hqueued, fun hq => hsame.reading_none (hnone hq)⟩

end Run

/-- Whatever the window asks, the owner answers and other clients do: a read that was asked for is going still, for its reason or
with it to follow, or a conversation that began no earlier has answered it, and the window gets the latest of the answers that
it has not taken, for the reasons of all of them. By two looks at the deadlines after it, nothing is left unanswered. -/
theorem reads_answered (A : Atoms) (window maximumRequestBytes : Nat) (as : List (Act × Reply)) :
    let w := as.foldl (step A) (new window maximumRequestBytes)
    (∀ i a reason time, as[i]? = some a → Asks a reason time → w.Covered reason i) ∧
      w.slot = latest (w.answers.drop w.taken) ∧
      ∀ r r' : Reply, (∀ t ∈ timesOf as, t + readDeadline ≤ r.now ∧ t + readDeadline ≤ r'.now) →
        ∀ i a reason time, as[i]? = some a → Asks a reason time →
          ∃ x ∈ (step A (step A w (.expire, r)) (.expire, r')).answers, x.why.has reason = true ∧ i ≤ x.began := by
  intro w
  have h : Answering as w := answering_run window maximumRequestBytes as
  refine ⟨h.covered, h.waits.2, fun r r' hdue i a reason time ha hasks => ?_⟩
  have h₁ : Answering (as ++ [(.expire, r)]) (step A w (.expire, r)) := h.step _
  have h₂ := h₁.step (A := A) (.expire, r')
  have htimes : timesOf (as ++ [(Act.expire, r)]) = timesOf as := by simp [timesOf]
  have hreading : (step A (step A w (.expire, r)) (.expire, r')).reading = none := by
    obtain ⟨hnone, hsome⟩ := expire_reading (A := A) h.timely fun t ht => (hdue t ht).1
    obtain ⟨hnone', hsome'⟩ := expire_reading (A := A) (r := r') h₁.timely fun t ht => (hdue t (htimes ▸ ht)).2
    by_cases hr : w.reading = none
    · exact hnone' (hnone hr)
    · by_cases hr₁ : (step A w (.expire, r)).reading = none
      · exact hnone' hr₁
      · exact (hsome' hr₁).2 (hsome hr).1
  have hmem : ((as ++ [(Act.expire, r)]) ++ [(Act.expire, r')])[i]? = some a := by
    have hi := (List.getElem?_eq_some_iff.1 ha).1
    rw [List.append_assoc, List.getElem?_append_left hi]
    exact ha
  rcases h₂.covered i a reason time hmem hasks with ⟨rd, hr, -⟩ | hanswered
  · rw [hreading] at hr
    cases hr
  · exact hanswered

end Worker

end Vento.Linux.Clipboard
