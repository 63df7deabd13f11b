import Vento.App.Sessions
/-!
# The notifications of the sessions

`SessionService.java` keeps the process in the foreground and posts one notification for each session that is alive. A service
in the foreground has exactly one notification of its own, so one session is chosen for it and the others are posted beside it.
-/

namespace Vento.App

open Vento.Lib

/-- What the service asks of the system. -/
inductive NotificationCall
  | startForeground (id : Int)
  | notify (id : Int)
  | cancel (id : Int)
  | stopSelf
deriving DecidableEq

/-- What the system shows, and which one is the service's own. -/
structure Shade where
  shown : Int → Bool := fun _ => false
  own : Option Int := none

namespace Shade

variable (h : Shade)

def post (id : Int) : Shade := { h with shown := Function.update h.shown id true }

def cancel (id : Int) : Shade := { h with shown := Function.update h.shown id false }

/-- Another one takes the place of its own. -/
def startForeground (id : Int) : Shade :=
  let h := match h.own with
    | some own => if own = id then h else h.cancel own
    | none => h
  { h.post id with own := some id }

/-- The service is destroyed later, by the system. -/
def call : NotificationCall → Shade
  | .startForeground id => h.startForeground id
  | .notify id => h.post id
  | .cancel id => h.cancel id
  | .stopSelf => h

end Shade

structure SessionService where
  /-- The ids that are posted, to be cancelled when their sessions end. -/
  posted : List Int := []
  /-- The id of the service's own notification, or 0. -/
  elected : Int := 0
  /-- Whether `update` has already stopped the service. -/
  stopped : Bool := false

namespace SessionService

/-- Of a service that is stopping. -/
def notificationNone : Int := -1

variable (s : SessionService) (alive : List Int)

/-- A new session is chosen only when the current one has ended. -/
def foreground : Int := if s.elected ∈ alive then s.elected else alive.headD 0

/-- Every alive session gets a notification, every other one loses its, and the service stops when none are alive. -/
def update : SessionService × List NotificationCall :=
  if alive = [] then
    if s.stopped then (s, [])
    else
      ({ s with stopped := true, posted := [] },
        [.startForeground (if s.elected ≠ 0 then s.elected else notificationNone)] ++ s.posted.map .cancel ++ [.stopSelf])
  else
    let f := s.foreground alive
    ({ posted := alive, elected := f, stopped := false },
      [.startForeground f] ++ (alive.filter (· ≠ f)).map .notify ++ (s.posted.filter (· ∉ alive)).map .cancel)

end SessionService

/-- The service is started for a session that opens, or the set of sessions has changed; with the ids of those alive. -/
inductive Update
  | onStartCommand (alive : List Int)
  | sessionsChanged (alive : List Int)

namespace Update

def apply (s : SessionService) : Update → SessionService × List NotificationCall
  | onStartCommand alive => { s with stopped := false }.update alive
  | sessionsChanged alive => s.update alive

/-- The service and what is shown. -/
def step (x : SessionService × Shade) (u : Update) : SessionService × Shade :=
  ((u.apply x.1).1, (u.apply x.1).2.foldl Shade.call x.2)

end Update

/-! ## What the calls show -/

namespace Shade

variable (h : Shade)

theorem shown_startForeground (f id : Int) :
    (h.startForeground f).shown id = true ↔ id = f ∨ (h.shown id = true ∧ h.own ≠ some id) := by
  rw [startForeground]
  by_cases hf : id = f
  · subst hf
    simp [post]
  · have hpost : ∀ h' : Shade, (h'.post f).shown id = h'.shown id := fun h' => Function.update_of_ne hf _ _
    dsimp only
    rw [hpost]
    cases hown : h.own with
    | none => simp [hf]
    | some own =>
      dsimp only
      split
      · next heq =>
        subst heq
        simp [hf, Ne.symm hf]
      · by_cases hid : id = own
        · subst hid
          simp [cancel, hf]
        · simp [cancel, Function.update_of_ne hid, hf, Ne.symm hid]

theorem shown_notifies (ids : List Int) (id : Int) :
    ((ids.map .notify).foldl call h).shown id = true ↔ h.shown id = true ∨ id ∈ ids := by
  induction ids generalizing h with
  | nil => simp
  | cons i ids ih =>
    rw [List.map_cons, List.foldl_cons, ih, List.mem_cons]
    by_cases hi : id = i
    · subst hi
      simp [call, post]
    · simp [call, post, hi]

theorem shown_cancels (ids : List Int) (id : Int) :
    ((ids.map .cancel).foldl call h).shown id = true ↔ h.shown id = true ∧ id ∉ ids := by
  induction ids generalizing h with
  | nil => simp
  | cons i ids ih =>
    rw [List.map_cons, List.foldl_cons, ih, List.mem_cons]
    by_cases hi : id = i
    · subst hi
      simp [call, cancel]
    · simp [call, cancel, hi]

theorem own_cancels (ids : List Int) : ((ids.map .cancel).foldl call h).own = h.own := by
  induction ids generalizing h with
  | nil => rfl
  | cons i ids ih => rw [List.map_cons, List.foldl_cons, ih]; rfl

/-- What leaves the service's own notification alone. -/
def Spares (f : Int) : NotificationCall → Prop
  | .startForeground _ => False
  | .notify _ => True
  | .cancel id => id ≠ f
  | .stopSelf => True

theorem own_foldl {f : Int} {calls : List NotificationCall} (hcalls : ∀ c ∈ calls, Spares f c) (hown : h.own = some f)
    (hshown : h.shown f = true) : (calls.foldl call h).own = some f ∧ (calls.foldl call h).shown f = true := by
  induction calls generalizing h with
  | nil => exact ⟨hown, hshown⟩
  | cons c calls ih =>
    obtain ⟨hc, hcalls⟩ := List.forall_mem_cons.1 hcalls
    refine ih (h.call c) hcalls ?_ ?_
    · cases c with
      | startForeground id => exact hc.elim
      | _ => exact hown
    · cases c with
      | startForeground id => exact hc.elim
      | notify id =>
        by_cases hid : f = id
        · subst hid
          exact Function.update_self _ _ _
        · exact (Function.update_of_ne hid _ _).trans hshown
      | cancel id => exact (Function.update_of_ne (Ne.symm hc) _ _).trans hshown
      | stopSelf => exact hshown

end Shade

/-! ## The service and the shade -/

namespace Update

/-- What is posted is what is shown, and without sessions nothing but the service's own. -/
structure Agree (x : SessionService × Shade) : Prop where
  posted : x.1.posted ≠ [] → x.1.elected ∈ x.1.posted ∧ ∀ id, x.2.shown id = true ↔ id ∈ x.1.posted
  idle : x.1.posted = [] → ∀ id, x.2.shown id = true → x.2.own = some id
  own : ∀ f, x.2.own = some f → 0 < f → f = x.1.elected
  stopped : x.1.stopped = true → x.1.posted = []

/-- All that is called about the sessions that are alive, but for the service's own notification. -/
def rest (s : SessionService) (alive : List Int) : List NotificationCall :=
  (alive.filter (· ≠ s.foreground alive)).map .notify ++ (s.posted.filter (· ∉ alive)).map .cancel

theorem update_of_alive (s : SessionService) {alive : List Int} (h : alive ≠ []) :
    s.update alive = ({ posted := alive, elected := s.foreground alive, stopped := false },
      .startForeground (s.foreground alive) :: rest s alive) := by
  rw [SessionService.update, if_neg h]
  rfl

theorem foreground_mem (s : SessionService) {alive : List Int} (h : alive ≠ []) : s.foreground alive ∈ alive := by
  rw [SessionService.foreground]
  split
  · assumption
  · cases alive with
    | nil => exact absurd rfl h
    | cons a alive => exact List.mem_cons_self

theorem spares_rest (s : SessionService) {alive : List Int} (h : alive ≠ []) :
    ∀ c ∈ rest s alive, Shade.Spares (s.foreground alive) c := by
  intro c hc
  rcases List.mem_append.1 hc with hc | hc
  · obtain ⟨id, -, rfl⟩ := List.mem_map.1 hc
    trivial
  · obtain ⟨id, hid, rfl⟩ := List.mem_map.1 hc
    have hnot := (List.mem_filter.1 hid).2
    rintro rfl
    simp [foreground_mem s h] at hnot

section Update

variable {s : SessionService} {sh : Shade} {alive : List Int}

/-- With the service's own first, its own is shown after each of the calls. -/
theorem own_shown (h : alive ≠ []) {pre : List NotificationCall} (hpre : pre <+: (s.update alive).2) (hne : pre ≠ []) :
    (pre.foldl Shade.call sh).own = some (s.foreground alive) ∧ (pre.foldl Shade.call sh).shown (s.foreground alive) = true := by
  rw [update_of_alive s h] at hpre
  cases pre with
  | nil => exact absurd rfl hne
  | cons c pre =>
    obtain ⟨rfl, hrest⟩ := List.cons_prefix_cons.1 hpre
    rw [List.foldl_cons]
    refine Shade.own_foldl _ (fun c hc => spares_rest s h c (hrest.subset hc)) rfl ?_
    exact (sh.shown_startForeground _ _).2 (.inl rfl)

theorem shown_update (ha : Agree (s, sh)) (h : alive ≠ []) (id : Int) :
    ((s.update alive).2.foldl Shade.call sh).shown id = true ↔ id ∈ alive := by
  have hf := foreground_mem s h
  rw [update_of_alive s h, List.foldl_cons, rest, List.foldl_append, Shade.shown_cancels, Shade.shown_notifies]
  change ((sh.startForeground _).shown id = true ∨ _) ∧ _ ↔ _
  rw [sh.shown_startForeground]
  simp only [List.mem_filter, decide_eq_true_eq]
  constructor
  · rintro ⟨(rfl | ⟨hshown, hown⟩) | ⟨hin, -⟩, hnot⟩
    · exact hf
    · -- What was shown besides is posted, and was cancelled unless it is alive.
      by_cases hp : s.posted = []
      · exact absurd (ha.idle hp id hshown) hown
      · by_contra hin
        exact hnot ⟨((ha.posted hp).2 id).1 hshown, hin⟩
    · exact hin
  · intro hin
    refine ⟨?_, fun hc => hc.2 hin⟩
    by_cases hid : id = s.foreground alive
    · exact .inl (.inl hid)
    · exact .inr ⟨hin, hid⟩

/-- Stopping leaves nothing but the service's own. -/
theorem shown_stop (ha : Agree (s, sh)) {id : Int} (h : ((s.update []).2.foldl Shade.call sh).shown id = true) :
    ((s.update []).2.foldl Shade.call sh).own = some id := by
  rw [SessionService.update, if_pos rfl] at h ⊢
  by_cases hs : s.stopped = true
  · rw [if_pos hs] at h ⊢
    exact ha.idle (ha.stopped hs) id h
  · rw [if_neg hs] at h ⊢
    generalize (if s.elected ≠ 0 then s.elected else SessionService.notificationNone) = e at h ⊢
    rw [List.foldl_append, List.foldl_append] at h ⊢
    change ((s.posted.map _).foldl Shade.call (sh.startForeground e)).shown id = true at h
    change ((s.posted.map _).foldl Shade.call (sh.startForeground e)).own = some id
    rw [Shade.own_cancels]
    rw [Shade.shown_cancels, sh.shown_startForeground] at h
    obtain ⟨rfl | ⟨hshown, hown⟩, hnot⟩ := h
    · rfl
    · by_cases hp : s.posted = []
      · exact absurd (ha.idle hp id hshown) hown
      · exact absurd (((ha.posted hp).2 id).1 hshown) hnot

/-- Stopped or not, without sessions its own is one that it never takes for a session's. -/
theorem own_stop (ha : Agree (s, sh)) {f : Int} (hf : 0 < f) (h : ((s.update []).2.foldl Shade.call sh).own = some f) :
    f = s.elected := by
  rw [SessionService.update, if_pos rfl] at h
  by_cases hs : s.stopped = true
  · rw [if_pos hs] at h
    exact ha.own f h hf
  · rw [if_neg hs, List.foldl_append, List.foldl_append] at h
    change ((s.posted.map _).foldl Shade.call (sh.startForeground _)).own = some f at h
    rw [Shade.own_cancels] at h
    have heq : (if s.elected ≠ 0 then s.elected else SessionService.notificationNone) = f := Option.some.inj h
    by_cases he : s.elected = 0
    · rw [if_neg (not_not_intro he), SessionService.notificationNone] at heq
      omega
    · rw [if_pos he] at heq
      exact heq.symm

theorem agree_update (ha : Agree (s, sh)) : Agree ((s.update alive).1, (s.update alive).2.foldl Shade.call sh) := by
  by_cases h : alive = []
  · subst h
    have hposted : (s.update []).1.posted = [] ∧ (s.update []).1.elected = s.elected := by
      rw [SessionService.update, if_pos rfl]
      split
      · next hs => exact ⟨ha.stopped hs, rfl⟩
      · exact ⟨rfl, rfl⟩
    refine ⟨fun hp => absurd hposted.1 hp, fun _ id => shown_stop ha, fun f hown hf => ?_, fun _ => hposted.1⟩
    exact (own_stop ha hf hown).trans hposted.2.symm
  · have heq := congrArg Prod.fst (update_of_alive s h)
    refine ⟨fun _ => ?_, fun hp => ?_, fun f hown _ => ?_, fun hs => ?_⟩
    · rw [heq]
      exact ⟨foreground_mem s h, fun id => shown_update ha h id⟩
    · rw [heq] at hp
      exact absurd hp h
    · have hne : (s.update alive).2 ≠ [] := by
        rw [update_of_alive s h]
        exact List.cons_ne_nil _ _
      have hfirst : ((s.update alive).2.foldl Shade.call sh).own = some (s.foreground alive) :=
        (own_shown h (List.prefix_refl _) hne).1
      rw [heq]
      exact (Option.some.inj (hfirst.symm.trans hown)).symm
    · rw [heq] at hs
      cases hs

end Update

theorem agree_step {x : SessionService × Shade} (ha : Agree x) (u : Update) : Agree (step x u) := by
  cases u with
  | sessionsChanged alive => exact agree_update ha
  | onStartCommand alive =>
    have h : Agree ({ x.1 with stopped := false }, x.2) := ⟨ha.posted, ha.idle, ha.own, fun hs => by cases hs⟩
    exact agree_update h

theorem agree_run (us : List Update) : Agree (us.foldl step ({}, {})) := by
  have hinit : Agree ({}, {}) :=
    ⟨fun h => absurd rfl h, fun _ id h => absurd h Bool.false_ne_true, fun f h => absurd h (Option.some_ne_none f).symm, fun _ => rfl⟩
  have go : ∀ (us : List Update) x, Agree x → Agree (us.foldl step x) := by
    intro us
    induction us with
    | nil => exact fun x hx => hx
    | cons u us ih => exact fun x hx => ih _ (agree_step hx u)
  exact go us _ hinit

end Update

/-! ## With the sessions -/

section Sessions

variable {P V B : Type}

/-- The ids of the sessions that need a notification. -/
def Sessions.aliveIds (w : Sessions P V B) : List Int := w.alive.map Nat.cast

theorem mem_aliveIds {w : Sessions P V B} (h : Sessions.Registered w) (id : Int) :
    id ∈ w.aliveIds ↔ ∃ (n : Nat) (o : Opened P V B), id = n ∧ w.session n = some o ∧ o.session.alive = true := by
  rw [Sessions.aliveIds, List.mem_map]
  constructor
  · rintro ⟨n, hn, rfl⟩
    have hany := (List.mem_filter.1 hn).2
    cases ho : w.session n with
    | none => simp [ho] at hany
    | some o => exact ⟨n, o, rfl, ho, by simpa [ho] using hany⟩
  · rintro ⟨n, o, rfl, ho, ha⟩
    have hopen : o.session.closed = false := by
      simp only [Session.alive, Bool.and_eq_true, Bool.not_eq_true'] at ha
      exact ha.1
    have hall : n ∈ w.all := List.mem_map.2 ⟨(o.session.key, n), (h.live _ n).2 ⟨o, ho, rfl, hopen⟩, rfl⟩
    exact ⟨n, List.mem_filter.2 ⟨hall, by simpa [ho] using ha⟩, rfl⟩

theorem aliveIds_pos {w : Sessions P V B} (h : Sessions.Registered w) {id : Int} (hid : id ∈ w.aliveIds) : 0 < id := by
  obtain ⟨n, o, rfl, ho, -⟩ := (mem_aliveIds h id).1 hid
  exact Int.natCast_pos.2 (h.known n o ho).1

/-- Whatever happened before, after an update the notifications are those of the sessions that are alive. The service's own is
one of them, is always shown meanwhile, and does not move as long as its session is alive; without sessions no other is left. -/
theorem notifications_follow [DecidableEq P] [DecidableEq V] {minutes now : Int} {es : List (Event P V B)} {w : Sessions P V B}
    (hr : run Sessions.step (Sessions.start minutes now) es = some w) (us : List Update) :
    let x := us.foldl Update.step ({}, {})
    let calls := (x.1.update w.aliveIds).2
    (w.alive ≠ [] →
      (∀ id, (calls.foldl Shade.call x.2).shown id = true ↔
        ∃ (n : Nat) (o : Opened P V B), id = n ∧ w.session n = some o ∧ o.session.alive = true) ∧
      ∃ f ∈ w.aliveIds, (∀ f' ∈ w.aliveIds, x.2.own = some f' → f' = f) ∧
        ∀ pre, pre <+: calls → pre ≠ [] → (pre.foldl Shade.call x.2).own = some f ∧ (pre.foldl Shade.call x.2).shown f = true) ∧
      (w.alive = [] → ∀ id, (calls.foldl Shade.call x.2).shown id = true → (calls.foldl Shade.call x.2).own = some id) := by
  intro x calls
  have hreg : Sessions.Registered w :=
    trace_inv_all (fun _ w => Sessions.Registered w) (Sessions.registered_start minutes now) (fun _ _ _ _ h he => h.step he) hr
  have hagree : Update.Agree x := Update.agree_run us
  refine ⟨fun hne => ?_, fun hnil id => ?_⟩
  · have hids : w.aliveIds ≠ [] := fun h => hne (List.map_eq_nil_iff.1 h)
    refine ⟨fun id => (Update.shown_update hagree hids id).trans (mem_aliveIds hreg id), ?_⟩
    refine ⟨x.1.foreground w.aliveIds, Update.foreground_mem x.1 hids, ?_, fun pre hpre hnil => Update.own_shown hids hpre hnil⟩
    intro f' hf' hown
    have heq := hagree.own f' hown (aliveIds_pos hreg hf')
    rw [SessionService.foreground, ← heq, if_pos hf']
  · have hids : w.aliveIds = [] := by rw [Sessions.aliveIds, hnil, List.map_nil]
    have hcalls : calls = (x.1.update []).2 := by rw [← hids]
    rw [hcalls]
    exact Update.shown_stop hagree

/-- Two sessions, of which the one that was chosen ends. -/
theorem notifications_follow_chosen : ∃ w : Sessions Nat Nat Nat,
    run Sessions.step (Sessions.start 0 0)
      [.openSession (lit "id:1") none, .openSession (lit "id:2") none, .act 1 (.state .closed none)] = some w ∧
      ∃ f ∈ w.aliveIds, ∀ pre, pre <+: [.startForeground 2, .cancel 1] → pre ≠ [] →
        (pre.foldl Shade.call ([Update.onStartCommand [1, 2]].foldl Update.step ({}, {})).2).shown f = true := by
  have hr : ∃ w : Sessions Nat Nat Nat, run Sessions.step (Sessions.start 0 0)
      [.openSession (lit "id:1") none, .openSession (lit "id:2") none, .act 1 (.state .closed none)] = some w ∧
        w.alive = [2] := ⟨_, rfl, by decide⟩
  obtain ⟨w, hr, halive⟩ := hr
  obtain ⟨-, f, hf, -, hpre⟩ := (notifications_follow hr [.onStartCommand [1, 2]]).1 (by rw [halive]; exact List.cons_ne_nil _ _)
  refine ⟨w, hr, f, hf, fun pre h hne => (hpre pre ?_ hne).2⟩
  rw [Sessions.aliveIds, halive]
  exact h

end Sessions

end Vento.App
