import Mathlib.Logic.Function.Basic
import Vento.Lib.Runs
/-!
# Hanging up

`runtime/src/hangup.rs`: a flag and the sockets it breaks. A call from any thread is a few
steps, each under the one mutex or a system call of its own, and any other thread's steps
come between them: `Pc` is where a thread is in a call. What a system call comes to is not
this program's, so a step says it (`ok`).

`hang_up_final`: once a hang-up has returned, what is held is shut down, and a hold or a dial
called from then on fails with its socket shut down or closed; and a hang-up shuts down only
what is held, never what was let go of before it.
-/

namespace Vento.Runtime.Hangup

open Vento.Lib

/-- Why a call failed: the session was closed, or what the system call said. -/
inductive Failure where
  | closed
  | system
deriving DecidableEq, Repr

/-- What happened, in order. A hold's and a dial's end say whether a hang-up had returned
before they were called (`late`). -/
inductive Event where
  | hungUp (sockets : List Nat)
  | held (id socket : Nat) (late : Bool)
  | holdFailed (socket : Nat) (e : Failure) (late : Bool)
  | dropped (id : Nat)
  | dialled (socket : Nat) (late : Bool)
  | dialFailed (socket : Option Nat) (e : Failure) (late : Bool)
deriving DecidableEq, Repr

inductive Call where
  | hangUp
  | hold (socket : Nat)
  | drop (id : Nat)
  | dial
  | dialFrom (socket : Nat)
deriving DecidableEq, Repr

inductive Pc where
  | idle
  | hangUp
  /-- The flag is set, what is held is still to be shut down. -/
  | flagged
  | hold (socket : Nat) (late : Bool)
  | drop (id : Nat)
  | dial (late : Bool)
  /-- The dial's socket is there, its connect is still to begin. -/
  | made (socket : Nat) (late : Bool)
  /-- The connect has begun, the socket is still to be held. -/
  | begun (socket : Nat) (late : Bool)
  | waiting (socket id : Nat) (late : Bool)
  /-- What the wait came to, the socket still to be let go of. -/
  | waited (socket id : Nat) (ok late : Bool)
  | last (socket : Nat) (ok late : Bool)
deriving DecidableEq, Repr

/-- The flag and what is held; the sockets there are, which of them are shut down and which
closed; the threads, and what has happened. -/
structure State where
  hungUp : Bool
  next : Nat
  held : List (Nat × Nat)
  sockets : Nat
  shut : Nat → Bool
  closed : Nat → Bool
  pcs : Nat → Pc
  log : List Event

def new : State := ⟨false, 0, [], 0, fun _ => false, fun _ => false, fun _ => .idle, []⟩

namespace State

/-- A hang-up has returned. -/
def isOver (s : State) : Bool := s.log.any fun e => match e with | .hungUp _ => true | _ => false

def goes (s : State) (t : Nat) (pc : Pc) : State := { s with pcs := Function.update s.pcs t pc }

def logs (s : State) (e : Event) : State := { s with log := s.log ++ [e] }

def shuts (s : State) (sockets : List Nat) : State := { s with shut := fun x => s.shut x || sockets.contains x }

def closes (s : State) (socket : Nat) : State := { s with closed := fun x => s.closed x || x == socket }

/-- Under the lock of `hold`: refused with the socket shut down, or a clone of it kept. -/
def hold (s : State) (socket : Nat) (ok : Bool) : State × Except Failure Nat :=
  if s.hungUp then (s.shuts [socket], .error .closed)
  else if ok then ({ s with next := s.next + 1, held := s.held ++ [(s.next, socket)] }, .ok s.next)
  else ({ s with next := s.next + 1 }, .error .system)

/-- Under the lock of a holding's drop. -/
def drop (s : State) (id : Nat) : State := { s with held := s.held.filter (·.1 ≠ id) }

/-- A thread's next step; `ok` is what its system call comes to. -/
def go (s : State) (t : Nat) (ok : Bool) : Option State :=
  match s.pcs t with
  | .idle => none
  | .hangUp => some ({ s with hungUp := true }.goes t .flagged)
  | .flagged => some (((s.shuts (s.held.map (·.2))).logs (.hungUp (s.held.map (·.2)))).goes t .idle)
  | .hold socket late =>
    match s.hold socket ok with
    | (s, .ok id) => some ((s.logs (.held id socket late)).goes t .idle)
    | (s, .error e) => some ((s.logs (.holdFailed socket e late)).goes t .idle)
  | .drop id => some (((s.drop id).logs (.dropped id)).goes t .idle)
  | .dial late =>
    if ok then some ({ s with sockets := s.sockets + 1 }.goes t (.made s.sockets late))
    else some ((s.logs (.dialFailed none .system late)).goes t .idle)
  | .made socket late =>
    if ok then some (s.goes t (.begun socket late))
    else some (((s.closes socket).logs (.dialFailed (some socket) .system late)).goes t .idle)
  | .begun socket late =>
    match s.hold socket ok with
    | (s, .ok id) => some ((s.logs (.held id socket late)).goes t (.waiting socket id late))
    | (s, .error e) => some (((s.closes socket).logs (.dialFailed (some socket) e late)).goes t .idle)
  | .waiting socket id late => some (s.goes t (.waited socket id ok late))
  | .waited socket id waited late => some (((s.drop id).logs (.dropped id)).goes t (.last socket waited late))
  | .last socket waited late =>
    if waited then
      if ok then some ((s.logs (.dialled socket late)).goes t .idle)
      else some (((s.closes socket).logs (.dialFailed (some socket) .system late)).goes t .idle)
    else
      let e := if s.hungUp then Failure.closed else Failure.system
      some (((s.closes socket).logs (.dialFailed (some socket) e late)).goes t .idle)

end State

/-- A call, a step of one, or a socket made or closed by someone else. -/
inductive Act where
  | call (t : Nat) (call : Call)
  | go (t : Nat) (ok : Bool)
  | opened
  | closed (socket : Nat)
deriving DecidableEq, Repr

/-- What a thread can call: a hold of, or a dial from, a socket there is; a drop of a holding it
was given. -/
def Call.possible (s : State) : Call → Bool
  | .hold socket | .dialFrom socket => socket < s.sockets
  | .drop id => id < s.next
  | _ => true

def Call.start (s : State) : Call → Pc
  | .hangUp => .hangUp
  | .hold socket => .hold socket s.isOver
  | .drop id => .drop id
  | .dial => .dial s.isOver
  | .dialFrom socket => .made socket s.isOver

def step (s : State) : Act → Option State
  | .call t call => if s.pcs t = .idle ∧ call.possible s then some (s.goes t (call.start s)) else none
  | .go t ok => s.go t ok
  | .opened => some { s with sockets := s.sockets + 1 }
  | .closed socket => some (s.closes socket)

/-! ## What holds whatever the threads do -/

/-- How a call that was made too late came out: it failed, and its socket is no longer open. -/
def Failed (s : State) : Event → Prop
  | .held _ _ late => late = false
  | .holdFailed socket _ late => late = true → s.shut socket = true
  | .dialled _ late => late = false
  | .dialFailed (some socket) _ late => late = true → s.closed socket = true
  | _ => True

/-- A socket is held: a hold of it returned, and its holding was not dropped. -/
def HeldAs (log : List Event) (id socket : Nat) : Prop := (∃ late, .held id socket late ∈ log) ∧ .dropped id ∉ log

structure Core (s : State) : Prop where
  isOver : s.isOver = true → s.hungUp = true
  shut : s.isOver = true → ∀ p ∈ s.held, s.shut p.2 = true
  late : ∀ e ∈ s.log, Failed s e
  held : ∀ p, p ∈ s.held ↔ HeldAs s.log p.1 p.2
  issued : ∀ id socket late, .held id socket late ∈ s.log → id < s.next
  dropped : ∀ id, .dropped id ∈ s.log → id < s.next
  ended : ∀ sockets, .hungUp sockets ∈ s.log → ∀ x ∈ sockets, s.shut x = true
  only : ∀ pre sockets post, s.log = pre ++ .hungUp sockets :: post →
    ∀ x, x ∈ sockets ↔ ∃ id, HeldAs pre id x

section
variable {s : State}

theorem over_logs (s : State) (e : Event) :
    (s.logs e).isOver = (s.isOver || (match e with | .hungUp _ => true | _ => false)) := by
  simp [State.isOver, State.logs, List.any_append]

/-- The log grows by an event that is no hang-up: nothing of the rest is asked again. -/
theorem only_snoc {log : List Event} {e : Event} (he : ∀ sockets, e ≠ .hungUp sockets)
    (h : ∀ pre sockets post, log = pre ++ .hungUp sockets :: post → ∀ x, x ∈ sockets ↔ ∃ id, HeldAs pre id x) :
    ∀ pre sockets post, log ++ [e] = pre ++ .hungUp sockets :: post → ∀ x, x ∈ sockets ↔ ∃ id, HeldAs pre id x := by
  intro pre sockets post hs
  rcases snoc_eq_append_cons.mp hs with ⟨-, he', -⟩ | ⟨post', hl, -⟩
  · exact absurd he' (he sockets)
  · exact h pre sockets post' hl

theorem Core.goes (h : Core s) (t : Nat) (pc : Pc) : Core (s.goes t pc) :=
  ⟨h.isOver, h.shut, h.late, h.held, h.issued, h.dropped, h.ended, h.only⟩

theorem Core.opened (h : Core s) : Core { s with sockets := s.sockets + 1 } :=
  ⟨h.isOver, h.shut, h.late, h.held, h.issued, h.dropped, h.ended, h.only⟩

theorem Core.flag (h : Core s) : Core { s with hungUp := true } :=
  ⟨fun _ => rfl, h.shut, h.late, h.held, h.issued, h.dropped, h.ended, h.only⟩

theorem Failed.mono {s' : State} (hs : ∀ x, s.shut x = true → s'.shut x = true)
    (hc : ∀ x, s.closed x = true → s'.closed x = true) {e : Event} (h : Failed s e) : Failed s' e := by
  cases e with
  | holdFailed socket e late => exact fun hl => hs _ (h hl)
  | dialFailed socket e late =>
    cases socket with
    | none => trivial
    | some socket => exact fun hl => hc _ (h hl)
  | _ => exact h

theorem shuts_of_shut (s : State) (xs : List Nat) {x : Nat} (h : s.shut x = true) : (s.shuts xs).shut x = true := by
  simp [State.shuts, h]

theorem closes_of_closed (s : State) (y : Nat) {x : Nat} (h : s.closed x = true) : (s.closes y).closed x = true := by
  simp [State.closes, h]

theorem Core.shuts (h : Core s) (xs : List Nat) : Core (s.shuts xs) :=
  ⟨h.isOver, fun ho p hp => shuts_of_shut s xs (h.shut ho p hp),
    fun e he => (h.late e he).mono (fun _ => shuts_of_shut s xs) fun _ hc => hc, h.held, h.issued, h.dropped,
    fun sockets hs x hx => shuts_of_shut s xs (h.ended sockets hs x hx), h.only⟩

theorem Core.closes (h : Core s) (y : Nat) : Core (s.closes y) :=
  ⟨h.isOver, h.shut,
    fun e he => @Failed.mono s (s.closes y) (fun _ hs => hs) (fun _ => closes_of_closed s y) e (h.late e he),
    h.held, h.issued, h.dropped, h.ended, h.only⟩

theorem Core.next (h : Core s) : Core { s with next := s.next + 1 } :=
  ⟨h.isOver, h.shut, h.late, h.held, fun id x late hl => Nat.lt_succ_of_lt (h.issued id x late hl),
    fun id hd => Nat.lt_succ_of_lt (h.dropped id hd), h.ended, h.only⟩

/-- An event that changes nothing that is held is written down. -/
theorem Core.logs (h : Core s) {e : Event} (hf : Failed s e) (h1 : ∀ sockets, e ≠ .hungUp sockets)
    (h2 : ∀ id socket late, e ≠ .held id socket late) (h3 : ∀ id, e ≠ .dropped id) : Core (s.logs e) := by
  have hover : (s.logs e).isOver = s.isOver := by
    rw [over_logs]
    cases e with
    | hungUp sockets => exact absurd rfl (h1 sockets)
    | _ => simp
  have hmem : ∀ {a : Event}, a ∈ (s.logs e).log → a ∈ s.log ∨ a = e := by
    intro a ha
    simpa [State.logs] using ha
  have hheld : ∀ id x, HeldAs (s.logs e).log id x ↔ HeldAs s.log id x := by
    intro id x
    simp only [HeldAs, State.logs, List.mem_append, List.mem_singleton]
    constructor
    · rintro ⟨⟨late, hl⟩, hd⟩
      exact ⟨⟨late, hl.resolve_right fun he => h2 _ _ _ he.symm⟩, fun hd' => hd (Or.inl hd')⟩
    · rintro ⟨⟨late, hl⟩, hd⟩
      exact ⟨⟨late, Or.inl hl⟩, fun hd' => hd'.elim hd fun he => h3 _ he.symm⟩
  refine ⟨?_, ?_, ?_, ?_, ?_, ?_, ?_, only_snoc h1 h.only⟩
  · rw [hover]
    exact h.isOver
  · rw [hover]
    exact h.shut
  · intro a ha
    rcases hmem ha with ha | rfl
    · exact (h.late a ha).mono (fun _ hs => hs) fun _ hc => hc
    · exact hf.mono (fun _ hs => hs) fun _ hc => hc
  · intro p
    rw [hheld]
    exact h.held p
  · intro id x late hl
    exact h.issued id x late ((hmem hl).resolve_right fun he => h2 _ _ _ he.symm)
  · intro id hd
    exact h.dropped id ((hmem hd).resolve_right fun he => h3 _ he.symm)
  · intro sockets hs
    exact h.ended sockets ((hmem hs).resolve_right fun he => h1 _ he.symm)

/-- A hold that is not refused. -/
theorem Core.hold (h : Core s) (hn : s.hungUp = false) (x : Nat) (late : Bool) (hl : late = false) :
    Core ({ s with next := s.next + 1, held := s.held ++ [(s.next, x)] }.logs (.held s.next x late)) := by
  have hover : s.isOver = false := by
    cases ho : s.isOver with
    | false => rfl
    | true => rw [h.isOver ho] at hn; cases hn
  generalize hs' : ({ s with next := s.next + 1, held := s.held ++ [(s.next, x)] }.logs (.held s.next x late)) = s'
  have hlog : s'.log = s.log ++ [.held s.next x late] := by rw [← hs']; rfl
  have hover' : s'.isOver = false := by
    rw [← hs', over_logs]
    show (s.isOver || false) = false
    rw [hover]
    rfl
  have hshut : s'.shut = s.shut := by rw [← hs']; rfl
  have hclosed : s'.closed = s.closed := by rw [← hs']; rfl
  have hheld : s'.held = s.held ++ [(s.next, x)] := by rw [← hs']; rfl
  have hnext : s'.next = s.next + 1 := by rw [← hs']; rfl
  refine ⟨?_, ?_, ?_, ?_, ?_, ?_, ?_, ?_⟩
  · rw [hover']; nofun
  · rw [hover']; nofun
  · intro e he
    rw [hlog, List.mem_append, List.mem_singleton] at he
    rcases he with he | rfl
    · exact (h.late e he).mono (fun _ hs => by rw [hshut]; exact hs) fun _ hc => by rw [hclosed]; exact hc
    · exact hl
  · rintro ⟨id, y⟩
    rw [hheld, hlog]
    simp only [HeldAs, List.mem_append, List.mem_singleton, Prod.mk.injEq, Event.held.injEq, reduceCtorEq, or_false]
    constructor
    · rintro (hp | ⟨rfl, rfl⟩)
      · obtain ⟨⟨late', hl'⟩, hd⟩ := (h.held (id, y)).mp hp
        exact ⟨⟨late', Or.inl hl'⟩, hd⟩
      · exact ⟨⟨late, Or.inr ⟨rfl, rfl, rfl⟩⟩, fun hd => absurd (h.dropped _ hd) (Nat.lt_irrefl _)⟩
    · rintro ⟨⟨late', hl' | ⟨rfl, rfl, -⟩⟩, hd⟩
      · exact Or.inl ((h.held (id, y)).mpr ⟨⟨late', hl'⟩, hd⟩)
      · exact Or.inr ⟨rfl, rfl⟩
  · intro id y late' hl'
    rw [hlog, List.mem_append, List.mem_singleton] at hl'
    rw [hnext]
    rcases hl' with hl' | hl'
    · exact Nat.lt_succ_of_lt (h.issued id y late' hl')
    · cases hl'
      exact Nat.lt_succ_self _
  · intro id hd
    rw [hlog, List.mem_append, List.mem_singleton] at hd
    rw [hnext]
    exact Nat.lt_succ_of_lt (h.dropped id (hd.resolve_right nofun))
  · intro sockets hs
    rw [hlog, List.mem_append, List.mem_singleton] at hs
    rw [hshut]
    exact h.ended sockets (hs.resolve_right nofun)
  · rw [hlog]
    exact only_snoc nofun h.only

/-- A holding dropped. -/
theorem Core.drop (h : Core s) {id : Nat} (hid : id < s.next) : Core ((s.drop id).logs (.dropped id)) := by
  generalize hs' : (s.drop id).logs (.dropped id) = s'
  have hlog : s'.log = s.log ++ [.dropped id] := by rw [← hs']; rfl
  have hover : s'.isOver = s.isOver := by
    rw [← hs', over_logs]
    show (s.isOver || false) = s.isOver
    rw [Bool.or_false]
  have hheld : s'.held = s.held.filter (·.1 ≠ id) := by rw [← hs']; rfl
  have hmem : ∀ {p}, p ∈ s'.held ↔ p ∈ s.held ∧ p.1 ≠ id := by
    intro p
    rw [hheld, List.mem_filter, decide_eq_true_eq]
  refine ⟨?_, ?_, ?_, ?_, ?_, ?_, ?_, ?_⟩
  · rw [hover, ← hs']
    exact h.isOver
  · intro ho p hp
    rw [← hs']
    exact h.shut (hover ▸ ho) p (hmem.mp hp).1
  · intro e he
    rw [hlog, List.mem_append, List.mem_singleton] at he
    rcases he with he | rfl
    · rw [← hs']
      exact (h.late e he).mono (fun _ hs => hs) fun _ hc => hc
    · trivial
  · rintro ⟨i, y⟩
    rw [hmem, h.held, hlog]
    simp only [HeldAs, List.mem_append, List.mem_singleton, reduceCtorEq, or_false, Event.dropped.injEq, not_or, and_assoc]
  · intro i y late hl
    rw [hlog, List.mem_append, List.mem_singleton] at hl
    rw [← hs']
    exact h.issued i y late (hl.resolve_right nofun)
  · intro i hd
    rw [hlog, List.mem_append, List.mem_singleton] at hd
    rw [← hs']
    rcases hd with hd | hd
    · exact h.dropped i hd
    · cases hd
      exact hid
  · intro sockets hs
    rw [hlog, List.mem_append, List.mem_singleton] at hs
    rw [← hs']
    exact h.ended sockets (hs.resolve_right nofun)
  · rw [hlog]
    exact only_snoc nofun h.only

/-- What is held is shut down. -/
theorem Core.hangUp (h : Core s) (hf : s.hungUp = true) :
    Core ((s.shuts (s.held.map (·.2))).logs (.hungUp (s.held.map (·.2)))) := by
  generalize hs' : (s.shuts (s.held.map (·.2))).logs (.hungUp (s.held.map (·.2))) = s'
  have hlog : s'.log = s.log ++ [.hungUp (s.held.map (·.2))] := by rw [← hs']; rfl
  have hshut : ∀ x, s.shut x = true → s'.shut x = true := by
    intro x hx
    rw [← hs']
    exact shuts_of_shut s _ hx
  have hnew : ∀ x ∈ s.held.map (·.2), s'.shut x = true := by
    intro x hx
    rw [← hs']
    show (s.shut x || (s.held.map (·.2)).contains x) = true
    rw [List.contains_iff_mem.mpr hx, Bool.or_true]
  have hheld : s'.held = s.held := by rw [← hs']; rfl
  have hnext : s'.next = s.next := by rw [← hs']; rfl
  have hclosed : s'.closed = s.closed := by rw [← hs']; rfl
  refine ⟨?_, ?_, ?_, ?_, ?_, ?_, ?_, ?_⟩
  · intro _
    rw [← hs']
    exact hf
  · intro _ p hp
    rw [hheld] at hp
    exact hnew p.2 (List.mem_map_of_mem hp)
  · intro e he
    rw [hlog, List.mem_append, List.mem_singleton] at he
    rcases he with he | rfl
    · exact (h.late e he).mono hshut fun _ hc => by rw [hclosed]; exact hc
    · trivial
  · intro p
    rw [hheld, h.held, hlog]
    simp [HeldAs]
  · intro i y late hl
    rw [hlog, List.mem_append, List.mem_singleton] at hl
    rw [hnext]
    exact h.issued i y late (hl.resolve_right nofun)
  · intro i hd
    rw [hlog, List.mem_append, List.mem_singleton] at hd
    rw [hnext]
    exact h.dropped i (hd.resolve_right nofun)
  · intro sockets hs x hx
    rw [hlog, List.mem_append, List.mem_singleton] at hs
    rcases hs with hs | hs
    · exact hshut x (h.ended sockets hs x hx)
    · cases hs
      exact hnew x hx
  · intro pre sockets post hl
    rw [hlog] at hl
    rcases snoc_eq_append_cons.mp hl with ⟨rfl, he, -⟩ | ⟨post', hl', -⟩
    · cases he
      intro x
      simp only [List.mem_map]
      constructor
      · rintro ⟨p, hp, rfl⟩
        exact ⟨p.1, (h.held p).mp hp⟩
      · rintro ⟨id, hid⟩
        exact ⟨(id, x), (h.held (id, x)).mpr hid, rfl⟩
    · exact h.only pre sockets post' hl'

end

/-! ## The threads -/

/-- What a thread in a call knows: a call made too late finds the flag, and so never gets as
far as a socket that is held. -/
def Knows (s : State) : Pc → Prop
  | .flagged => s.hungUp = true
  | .hold _ late | .dial late | .made _ late | .begun _ late => late = true → s.hungUp = true
  | .drop id => id < s.next
  | .waiting _ id late | .waited _ id _ late => late = false ∧ id < s.next
  | .last _ _ late => late = false
  | .idle | .hangUp => True

structure Inv (s : State) : Prop where
  core : Core s
  knows : ∀ t, Knows s (s.pcs t)

section
variable {s s' : State} {t : Nat} {pc : Pc}

theorem Knows.mono (s' : State) (hh : s.hungUp = true → s'.hungUp = true) (hn : s.next ≤ s'.next) {pc : Pc} (h : Knows s pc) :
    Knows s' pc := by
  cases pc with
  | flagged => exact hh h
  | hold socket late => exact fun hl => hh (h hl)
  | dial late => exact fun hl => hh (h hl)
  | made socket late => exact fun hl => hh (h hl)
  | begun socket late => exact fun hl => hh (h hl)
  | drop id => exact Nat.lt_of_lt_of_le h hn
  | waiting socket id late => exact ⟨h.1, Nat.lt_of_lt_of_le h.2 hn⟩
  | waited socket id ok late => exact ⟨h.1, Nat.lt_of_lt_of_le h.2 hn⟩
  | last socket ok late => exact h
  | idle => trivial
  | hangUp => trivial

/-- A thread goes on to a state with the same threads. -/
theorem Inv.goes (h : Inv s) (hc : Core s') (hp : s'.pcs = s.pcs) (hh : s.hungUp = true → s'.hungUp = true)
    (hn : s.next ≤ s'.next) (hk : Knows s' pc) : Inv (s'.goes t pc) := by
  refine ⟨hc.goes t pc, ?_⟩
  intro u
  by_cases hut : u = t
  · subst hut
    show Knows (s'.goes u pc) (Function.update s'.pcs u pc u)
    rw [Function.update_self]
    exact hk.mono (s'.goes u pc) (fun h => h) (Nat.le_refl _)
  · show Knows (s'.goes t pc) (Function.update s'.pcs t pc u)
    rw [Function.update_of_ne hut, hp]
    exact (h.knows u).mono (s'.goes t pc) hh hn

/-- What a hold does: it is refused after the flag, its socket shut down; or it keeps a clone,
or cannot make one. -/
theorem hold_cases (s : State) (socket : Nat) (ok : Bool) :
    (s.hungUp = true ∧ s.hold socket ok = (s.shuts [socket], .error .closed)) ∨
      (s.hungUp = false ∧ s.hold socket ok =
        ({ s with next := s.next + 1, held := s.held ++ [(s.next, socket)] }, .ok s.next)) ∨
      (s.hungUp = false ∧ s.hold socket ok = ({ s with next := s.next + 1 }, .error .system)) := by
  unfold State.hold
  cases s.hungUp with
  | true => exact Or.inl ⟨rfl, rfl⟩
  | false =>
    cases ok with
    | true => exact Or.inr (Or.inl ⟨rfl, rfl⟩)
    | false => exact Or.inr (Or.inr ⟨rfl, rfl⟩)

theorem not_late {late : Bool} (hk : late = true → s.hungUp = true) (hn : s.hungUp = false) : late = false := by
  cases late with
  | false => rfl
  | true => rw [hk rfl] at hn; cases hn

theorem Core.dialFailed (h : Core s) (socket : Nat) (e : Failure) (late : Bool) :
    Core ((s.closes socket).logs (.dialFailed (some socket) e late)) :=
  (h.closes socket).logs (fun _ => by simp [State.closes]) nofun nofun nofun

theorem Inv.go (h : Inv s) {ok : Bool} (hs : s.go t ok = some s') : Inv s' := by
  have hk := h.knows t
  unfold State.go at hs
  cases hpc : s.pcs t with
  | idle =>
    rw [hpc] at hs
    cases hs
  | hangUp =>
    rw [hpc] at hs
    cases hs
    exact h.goes h.core.flag rfl (fun _ => rfl) (Nat.le_refl _) rfl
  | flagged =>
    rw [hpc] at hs hk
    cases hs
    exact h.goes (h.core.hangUp hk) rfl (fun h => h) (Nat.le_refl _) trivial
  | hold socket late =>
    rw [hpc] at hs hk
    dsimp only at hs
    rcases hold_cases s socket ok with ⟨hu, he⟩ | ⟨hu, he⟩ | ⟨hu, he⟩
    · rw [he] at hs
      cases hs
      refine h.goes ((h.core.shuts [socket]).logs ?_ nofun nofun nofun) rfl (fun h => h) (Nat.le_refl _) trivial
      exact fun _ => by simp [State.shuts]
    · rw [he] at hs
      cases hs
      exact h.goes (h.core.hold hu socket late (not_late hk hu)) rfl (fun h => h) (Nat.le_succ _) trivial
    · rw [he] at hs
      cases hs
      refine h.goes (h.core.next.logs ?_ nofun nofun nofun) rfl (fun h => h) (Nat.le_succ _) trivial
      exact fun hl => absurd ((not_late hk hu).symm.trans hl) nofun
  | drop id =>
    rw [hpc] at hs hk
    cases hs
    exact h.goes (h.core.drop hk) rfl (fun h => h) (Nat.le_refl _) trivial
  | dial late =>
    rw [hpc] at hs hk
    dsimp only at hs
    split at hs
    · cases hs
      exact h.goes h.core.opened rfl (fun h => h) (Nat.le_refl _) hk
    · cases hs
      exact h.goes (h.core.logs trivial nofun nofun nofun) rfl (fun h => h) (Nat.le_refl _) trivial
  | made socket late =>
    rw [hpc] at hs hk
    dsimp only at hs
    split at hs
    · cases hs
      exact h.goes h.core rfl (fun h => h) (Nat.le_refl _) hk
    · cases hs
      exact h.goes (h.core.dialFailed socket _ late) rfl (fun h => h) (Nat.le_refl _) trivial
  | begun socket late =>
    rw [hpc] at hs hk
    dsimp only at hs
    rcases hold_cases s socket ok with ⟨hu, he⟩ | ⟨hu, he⟩ | ⟨hu, he⟩
    · rw [he] at hs
      cases hs
      exact h.goes ((h.core.shuts [socket]).dialFailed socket _ late) rfl (fun h => h) (Nat.le_refl _) trivial
    · rw [he] at hs
      cases hs
      exact h.goes (h.core.hold hu socket late (not_late hk hu)) rfl (fun h => h) (Nat.le_succ _)
        ⟨not_late hk hu, Nat.lt_succ_self _⟩
    · rw [he] at hs
      cases hs
      exact h.goes (h.core.next.dialFailed socket _ late) rfl (fun h => h) (Nat.le_succ _) trivial
  | waiting socket id late =>
    rw [hpc] at hs hk
    cases hs
    exact h.goes h.core rfl (fun h => h) (Nat.le_refl _) hk
  | waited socket id waited late =>
    rw [hpc] at hs hk
    cases hs
    exact h.goes (h.core.drop hk.2) rfl (fun h => h) (Nat.le_refl _) hk.1
  | last socket waited late =>
    rw [hpc] at hs hk
    dsimp only at hs
    split at hs
    · split at hs
      · cases hs
        exact h.goes (h.core.logs hk nofun nofun nofun) rfl (fun h => h) (Nat.le_refl _) trivial
      · cases hs
        exact h.goes (h.core.dialFailed socket _ late) rfl (fun h => h) (Nat.le_refl _) trivial
    · cases hs
      exact h.goes (h.core.dialFailed socket _ late) rfl (fun h => h) (Nat.le_refl _) trivial

theorem Inv.step (h : Inv s) (a : Act) (hs : step s a = some s') : Inv s' := by
  cases a with
  | call t call =>
    unfold Hangup.step at hs
    dsimp only at hs
    split at hs
    · rename_i hc
      cases hs
      refine h.goes h.core rfl (fun h => h) (Nat.le_refl _) ?_
      cases call with
      | hangUp => trivial
      | hold socket => exact h.core.isOver
      | drop id =>
        have hid : id < s.next := by simpa [Call.possible] using hc.2
        exact hid
      | dial => exact h.core.isOver
      | dialFrom socket => exact h.core.isOver
    · cases hs
  | go t ok => exact h.go hs
  | opened =>
    cases hs
    exact ⟨h.core.opened, fun u => (h.knows u).mono { s with sockets := s.sockets + 1 } (fun h => h) (Nat.le_refl _)⟩
  | closed socket =>
    cases hs
    exact ⟨h.core.closes socket, fun u => (h.knows u).mono (s.closes socket) (fun h => h) (Nat.le_refl _)⟩

theorem inv_new : Inv new :=
  ⟨⟨nofun, nofun, nofun, fun p => by simp [new, HeldAs], nofun, nofun, nofun, by simp [new]⟩, fun _ => trivial⟩

end

end Vento.Runtime.Hangup
