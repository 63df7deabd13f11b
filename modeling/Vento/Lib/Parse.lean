import Mathlib.Algebra.Ring.Nat
import Mathlib.Tactic.Common
/-!
# Parsers

A parser reads a prefix of its input or fails. Three notions about one:

* `Parses p bs a`: on `bs`, whatever follows, `p` gives `a` and leaves exactly
  what follows;
* `Local p`: whatever `p` accepts it accepts for the bytes it used alone;
* `Sat p Q E`: on every input, what `p` gives meets `Q` and its failure meets
  `E`.

Each has a rule for each way of building a parser; loops are `foldlM`.
-/

namespace Vento.Lib

variable {ε τ α β ι : Type}

abbrev Parser (ε τ : Type) := StateT (List τ) (Except ε)

namespace Parser

def fail (e : ε) : Parser ε τ α := fun _ => .error e

/-- The next token. -/
def next (e : ε) : Parser ε τ τ
  | [] => .error e
  | b :: bs => .ok (b, bs)

/-- The next `n` tokens. -/
def takeN (e : ε) (n : Nat) : Parser ε τ (List τ) := fun bs =>
  if n ≤ bs.length then .ok (bs.take n, bs.drop n) else .error e

/-- `for _ in 0..n`. -/
def repeatM {σ : Type} (n : Nat) (f : σ → Parser ε τ σ) (s : σ) : Parser ε τ σ :=
  match n with
  | 0 => pure s
  | n + 1 => do repeatM n f (← f s)

/-- `while cond`, of `fuel` rounds at most; `e` where they do not suffice. -/
def whileM {σ : Type} (e : ε) (cond : σ → Bool) (body : σ → Parser ε τ σ) : Nat → σ → Parser ε τ σ
  | 0, s => if cond s then fail e else pure s
  | fuel + 1, s => if cond s then do whileM e cond body fuel (← body s) else pure s

/-- The rounds of a counted loop go with any list of that length. -/
theorem repeatM_eq_foldlM {σ : Type} (f : σ → Parser ε τ σ) (is : List ι) (s : σ) :
    repeatM is.length f s = is.foldlM (fun s _ => f s) s := by
  induction is generalizing s with
  | nil => rfl
  | cons i is ih =>
    rw [List.foldlM_cons, List.length_cons, repeatM]
    simp only [ih]

theorem bind_ok {p : Parser ε τ α} {f : α → Parser ε τ β} {bs rest : List τ} {a : α} (h : p bs = .ok (a, rest)) :
    (p >>= f) bs = f a rest := by
  show (p bs >>= fun x => f x.1 x.2) = _
  rw [h]
  rfl

theorem bind_error {p : Parser ε τ α} {f : α → Parser ε τ β} {bs : List τ} {e : ε} (h : p bs = .error e) :
    (p >>= f) bs = .error e := by
  show (p bs >>= fun x => f x.1 x.2) = _
  rw [h]
  rfl

theorem bind_eq_ok {p : Parser ε τ α} {f : α → Parser ε τ β} {bs rest : List τ} {b : β} :
    (p >>= f) bs = .ok (b, rest) ↔ ∃ a mid, p bs = .ok (a, mid) ∧ f a mid = .ok (b, rest) := by
  cases h : p bs with
  | error e => simp [bind_error h]
  | ok x =>
    rw [bind_ok h]
    constructor
    · exact fun hf => ⟨x.1, x.2, rfl, hf⟩
    · rintro ⟨a, mid, hx, hf⟩
      cases hx
      exact hf

theorem map_error {p : Parser ε τ α} {f : α → β} {bs : List τ} {e : ε} (h : p bs = .error e) :
    (f <$> p) bs = .error e := by
  rw [map_eq_pure_bind]
  exact bind_error h

theorem pure_eq_ok {bs rest : List τ} {a b : α} :
    (pure a : Parser ε τ α) bs = .ok (b, rest) ↔ a = b ∧ bs = rest := by
  show Except.ok (a, bs) = Except.ok (b, rest) ↔ _
  simp

theorem map_eq_ok {p : Parser ε τ α} {f : α → β} {bs rest : List τ} {b : β} :
    (f <$> p) bs = .ok (b, rest) ↔ ∃ a, p bs = .ok (a, rest) ∧ f a = b := by
  rw [map_eq_pure_bind, bind_eq_ok]
  constructor
  · rintro ⟨a, mid, h1, h2⟩
    obtain ⟨rfl, rfl⟩ := pure_eq_ok.1 h2
    exact ⟨a, h1, rfl⟩
  · rintro ⟨a, h, rfl⟩
    exact ⟨a, rest, h, rfl⟩

/-! ## What it reads -/

def Parses (p : Parser ε τ α) (bs : List τ) (a : α) : Prop := ∀ rest, p (bs ++ rest) = .ok (a, rest)

namespace Parses

theorem pure (a : α) : Parses (pure a : Parser ε τ α) [] a := fun _ => rfl

theorem bind {p : Parser ε τ α} {f : α → Parser ε τ β} {bs cs : List τ} {a : α} {b : β}
    (hp : Parses p bs a) (hf : Parses (f a) cs b) : Parses (p >>= f) (bs ++ cs) b := by
  intro rest
  rw [List.append_assoc, bind_ok (hp _), hf]

/-- A step that reads nothing. -/
theorem bind_nil {p : Parser ε τ α} {f : α → Parser ε τ β} {cs : List τ} {a : α} {b : β}
    (hp : Parses p [] a) (hf : Parses (f a) cs b) : Parses (p >>= f) cs b := hp.bind hf

/-- A step after which nothing is read. -/
theorem bind_last {p : Parser ε τ α} {f : α → Parser ε τ β} {bs : List τ} {a : α} {b : β}
    (hp : Parses p bs a) (hf : Parses (f a) [] b) : Parses (p >>= f) bs b := by
  rw [← List.append_nil bs]
  exact hp.bind hf

theorem map {p : Parser ε τ α} {bs : List τ} {a : α} (hp : Parses p bs a) (f : α → β) : Parses (f <$> p) bs (f a) := by
  intro rest
  rw [map_eq_pure_bind, bind_ok (hp rest)]
  rfl

theorem next (e : ε) (b : τ) : Parses (next e) [b] b := fun _ => rfl

theorem next_bind {e : ε} {b : τ} {f : τ → Parser ε τ β} {bs : List τ} {v : β} (h : Parses (f b) bs v) :
    Parses (Parser.next e >>= f) (b :: bs) v := (next e b).bind h

theorem lift {x : Except ε α} {a : α} (h : x = .ok a) : Parses (liftM x : Parser ε τ α) [] a := by
  subst h
  exact fun _ => rfl

theorem takeN (e : ε) (bs : List τ) : Parses (takeN e bs.length) bs bs := by
  intro rest
  simp [Parser.takeN]

end Parses

/-- `bs` is what a loop reads, item by item, as `R` says each item goes. -/
inductive Chain (R : α → ι → List τ → α → Prop) : α → List ι → List τ → α → Prop
  | nil (a : α) : Chain R a [] [] a
  | cons {a b c : α} {i : ι} {is : List ι} {bs cs : List τ} :
    R a i bs b → Chain R b is cs c → Chain R a (i :: is) (bs ++ cs) c

theorem Chain.one {R : α → ι → List τ → α → Prop} {a b : α} {i : ι} {bs : List τ} (h : R a i bs b) :
    Chain R a [i] bs b := by
  simpa using Chain.cons h (.nil b)

theorem Chain.flatMap {R : α → ι → List τ → α → Prop} {a : α} {is : List ι} {enc : ι → List τ}
    (h : ∀ i ∈ is, R a i (enc i) a) : Chain R a is (is.flatMap enc) a := by
  induction is with
  | nil => exact .nil a
  | cons i is ih => exact .cons (h i (by simp)) (ih fun j hj => h j (by simp [hj]))

/-- A chain that counts up by one at least has no more items than that. -/
theorem Chain.length_le {R : Nat → ι → List τ → Nat → Prop} (hR : ∀ a i bs b, R a i bs b → a < b) {a b : Nat}
    {is : List ι} {bs : List τ} (hc : Chain R a is bs b) : a + is.length ≤ b := by
  induction hc with
  | nil a => exact Nat.le_refl a
  | cons hr _ ih =>
    have := hR _ _ _ _ hr
    simp only [List.length_cons]
    omega

/-- The length of what a chain reads, from a bound on what each item brings. -/
theorem Chain.bytes_le {R : α → ι → List τ → α → Prop} (m : α → Nat)
    (hR : ∀ a i bs b, R a i bs b → m a + bs.length ≤ m b)
    {a b : α} {is : List ι} {bs : List τ} (hc : Chain R a is bs b) : m a + bs.length ≤ m b := by
  induction hc with
  | nil a => exact Nat.le_refl _
  | cons hr _ ih =>
    have := hR _ _ _ _ hr
    rw [List.length_append]
    omega

theorem Chain.bytes_le_sum {R : α → ι → List τ → α → Prop} (cost : ι → Nat) {a b : α} {is : List ι} {bs : List τ}
    (hc : Chain R a is bs b) (hR : ∀ i ∈ is, ∀ a bs b, R a i bs b → bs.length ≤ cost i) :
    bs.length ≤ (is.map cost).sum := by
  induction hc with
  | nil a => simp
  | @cons a b c i is bs cs hr _ ih =>
    have h1 := hR i (by simp) _ _ _ hr
    have h2 := ih fun j hj => hR j (by simp [hj])
    simp only [List.length_append, List.map_cons, List.sum_cons]
    omega

/-- A loop whose every round reads its item. `I` is what holds of the state as
the items before it are done. -/
theorem Chain.parses {σ : Type} {R : α → ι → List τ → α → Prop} {f : σ → ι → Parser ε τ σ}
    (I : List ι → α → σ → Prop) {a b : α} {is : List ι} {bs : List τ} (hc : Chain R a is bs b)
    (hstep : ∀ done, ∀ i ∈ is, ∀ a bs b s, I done a s → R a i bs b →
      ∃ s', Parses (f s i) bs s' ∧ I (done ++ [i]) b s') :
    ∀ (done : List ι) {s : σ}, I done a s → ∃ s', Parses (is.foldlM f s) bs s' ∧ I (done ++ is) b s' := by
  induction hc with
  | nil a =>
    intro done s hi
    exact ⟨s, Parses.pure s, by simpa using hi⟩
  | @cons a b c i is bs cs hr _ ih =>
    intro done s hi
    obtain ⟨s', hp, hi'⟩ := hstep done i (by simp) a bs b s hi hr
    obtain ⟨s'', hp', hi''⟩ := ih (fun done j hj => hstep done j (by simp [hj])) _ hi'
    refine ⟨s'', ?_, by simpa using hi''⟩
    rw [List.foldlM_cons]
    exact hp.bind hp'

theorem Chain.parses_repeatM {σ : Type} {R : α → ι → List τ → α → Prop} {f : σ → Parser ε τ σ}
    (I : List ι → α → σ → Prop) {a b : α} {is : List ι} {bs : List τ} (hc : Chain R a is bs b)
    (hstep : ∀ done, ∀ i ∈ is, ∀ a bs b s, I done a s → R a i bs b →
      ∃ s', Parses (f s) bs s' ∧ I (done ++ [i]) b s') {s : σ} (hs : I [] a s) :
    ∃ s', Parses (repeatM is.length f s) bs s' ∧ I is b s' := by
  rw [repeatM_eq_foldlM]
  exact hc.parses I hstep [] hs

/-- A loop that collects what it reads. -/
theorem Chain.parses_collect {R : α → ι → List τ → α → Prop} {f : List β → Parser ε τ (List β)} (val : ι → β) {a b : α}
    {is : List ι} {bs : List τ} (hc : Chain R a is bs b)
    (hstep : ∀ done, ∀ i ∈ is, ∀ a bs b, R a i bs b → Parses (f done) bs (done ++ [val i])) :
    Parses (repeatM is.length f []) bs (is.map val) := by
  obtain ⟨out, hp, rfl⟩ := hc.parses_repeatM (fun done _ out => out = done.map val)
    (fun done i hi a bs b out hout hr => ⟨_, hstep out i hi a bs b hr, by simp [hout]⟩) rfl
  exact hp

/-- A `while` loop with a round for each item. -/
theorem Chain.parses_whileM {σ : Type} {R : α → ι → List τ → α → Prop} {e : ε} {cond : σ → Bool}
    {body : σ → Parser ε τ σ} (I : List ι → α → σ → Prop) {a b : α} {is : List ι} {bs : List τ} (hc : Chain R a is bs b)
    (hstep : ∀ done a i bs b s, I done a s → R a i bs b →
      cond s = true ∧ ∃ s', Parses (body s) bs s' ∧ I (done ++ [i]) b s')
    (hend : ∀ done s, I done b s → cond s = false) :
    ∀ {fuel : Nat} (done : List ι) {s : σ}, is.length ≤ fuel → I done a s →
      ∃ s', Parses (whileM e cond body fuel s) bs s' ∧ I (done ++ is) b s' := by
  induction hc with
  | nil a =>
    intro fuel done s _ hs
    refine ⟨s, ?_, by simpa using hs⟩
    cases fuel <;> simpa [whileM, hend done s hs] using Parses.pure s
  | @cons a b c i is bs cs hr _ ih =>
    intro fuel done s hfuel hs
    obtain ⟨hcond, s', hp, hi⟩ := hstep done a i bs b s hs hr
    cases fuel with
    | zero => simp at hfuel
    | succ fuel =>
      obtain ⟨s'', hp', hi'⟩ := ih hend _ (by simpa using hfuel) hi
      refine ⟨s'', ?_, by simpa using hi'⟩
      rw [whileM, if_pos hcond]
      exact hp.bind hp'

/-! ## Which bytes it used -/

def Local (p : Parser ε τ α) : Prop :=
  ∀ bs a rest, p bs = .ok (a, rest) → ∃ used, bs = used ++ rest ∧ Parses p used a

namespace Local

theorem pure (a : α) : Local (pure a : Parser ε τ α) := by
  intro bs b rest h
  obtain ⟨rfl, rfl⟩ := pure_eq_ok.1 h
  exact ⟨[], rfl, Parses.pure a⟩

theorem fail (e : ε) : Local (fail e : Parser ε τ α) := by
  intro bs a rest h
  cases h

theorem bind {p : Parser ε τ α} {f : α → Parser ε τ β} (hp : Local p) (hf : ∀ a, Local (f a)) : Local (p >>= f) := by
  intro bs b rest h
  obtain ⟨a, mid, h1, h2⟩ := bind_eq_ok.1 h
  obtain ⟨used, rfl, hu⟩ := hp _ _ _ h1
  obtain ⟨used', rfl, hu'⟩ := hf _ _ _ _ h2
  exact ⟨used ++ used', by simp, hu.bind hu'⟩

theorem map {p : Parser ε τ α} (hp : Local p) (f : α → β) : Local (f <$> p) := by
  rw [map_eq_pure_bind]
  exact hp.bind fun _ => pure _

theorem next (e : ε) : Local (next e : Parser ε τ τ) := by
  intro bs b rest h
  cases bs with
  | nil => cases h
  | cons c cs =>
    cases h
    exact ⟨[b], rfl, Parses.next e b⟩

theorem foldlM {σ : Type} {f : σ → ι → Parser ε τ σ} (is : List ι) (hf : ∀ s i, Local (f s i)) (s : σ) :
    Local (is.foldlM f s) := by
  induction is generalizing s with
  | nil => exact pure s
  | cons i is ih =>
    rw [List.foldlM_cons]
    exact (hf s i).bind ih

theorem repeatM {σ : Type} {f : σ → Parser ε τ σ} (hf : ∀ s, Local (f s)) (n : Nat) (s : σ) :
    Local (repeatM n f s) := by
  rw [← List.length_range (n := n), repeatM_eq_foldlM]
  exact foldlM _ (fun s _ => hf s) s

theorem whileM {σ : Type} {e : ε} {cond : σ → Bool} {body : σ → Parser ε τ σ} (hb : ∀ s, Local (body s)) (fuel : Nat)
    (s : σ) : Local (whileM e cond body fuel s) := by
  induction fuel generalizing s with
  | zero =>
    unfold Parser.whileM
    split
    · exact fail e
    · exact pure s
  | succ fuel ih =>
    unfold Parser.whileM
    split
    · exact (hb s).bind ih
    · exact pure s

/-- A loop that succeeds used some bytes in each round. -/
theorem foldlM_chain {σ : Type} {f : σ → ι → Parser ε τ σ} (hf : ∀ s i, Local (f s i)) {is : List ι} {s s' : σ}
    {bs rest : List τ} (h : is.foldlM f s bs = .ok (s', rest)) :
    ∃ used, bs = used ++ rest ∧ Chain (fun s i used s' => Parses (f s i) used s') s is used s' := by
  induction is generalizing s bs with
  | nil =>
    obtain ⟨rfl, rfl⟩ := pure_eq_ok.1 h
    exact ⟨[], rfl, .nil s⟩
  | cons i is ih =>
    rw [List.foldlM_cons] at h
    obtain ⟨a, mid, h1, h2⟩ := bind_eq_ok.1 h
    obtain ⟨used, rfl, hu⟩ := hf s i _ _ _ h1
    obtain ⟨used', rfl, hc⟩ := ih h2
    exact ⟨used ++ used', by simp, .cons hu hc⟩

end Local

/-! ## What it gives -/

def Sat (p : Parser ε τ α) (Q : α → Prop) (E : ε → Prop) : Prop :=
  ∀ bs, match p bs with
    | .ok (a, _) => Q a
    | .error e => E e

namespace Sat

variable {Q : α → Prop} {E : ε → Prop}

theorem pure {a : α} (h : Q a) : Sat (pure a : Parser ε τ α) Q E := fun _ => h

theorem fail {e : ε} (h : E e) : Sat (fail e : Parser ε τ α) Q E := fun _ => h

theorem bind {p : Parser ε τ α} {f : α → Parser ε τ β} {Q' : β → Prop} (hp : Sat p Q E)
    (hf : ∀ a, Q a → Sat (f a) Q' E) : Sat (p >>= f) Q' E := by
  intro bs
  have hbs := hp bs
  cases h : p bs with
  | error e =>
    rw [bind_error h]
    rwa [h] at hbs
  | ok x =>
    rw [bind_ok h]
    rw [h] at hbs
    exact hf x.1 hbs x.2

theorem ite {c : Prop} [Decidable c] {p q : Parser ε τ α} (hp : c → Sat p Q E) (hq : ¬c → Sat q Q E) :
    Sat (if c then p else q) Q E := by
  split
  · exact hp ‹c›
  · exact hq ‹¬c›

theorem map {p : Parser ε τ α} {Q' : β → Prop} {f : α → β} (hp : Sat p Q E) (hf : ∀ a, Q a → Q' (f a)) :
    Sat (f <$> p) Q' E := by
  rw [map_eq_pure_bind]
  exact hp.bind fun a ha => pure (hf a ha)

theorem mono {p : Parser ε τ α} {Q' : α → Prop} (hp : Sat p Q E) (h : ∀ a, Q a → Q' a) : Sat p Q' E := by
  have := hp.map (f := id) h
  rwa [id_map] at this

theorem of_ok {p : Parser ε τ α} (hp : Sat p Q E) {bs rest : List τ} {a : α} (h : p bs = .ok (a, rest)) : Q a := by
  have hbs := hp bs
  rwa [h] at hbs

theorem of_error {p : Parser ε τ α} (hp : Sat p Q E) {bs : List τ} {e : ε} (h : p bs = .error e) : E e := by
  have hbs := hp bs
  rwa [h] at hbs

/-- Saying less of a failure. -/
theorem weaken {p : Parser ε τ α} {E' : ε → Prop} (hp : Sat p Q E) (h : ∀ e, E e → E' e) : Sat p Q E' := by
  intro bs
  cases hb : p bs with
  | error e => exact h e (hp.of_error hb)
  | ok x => exact hp.of_ok hb

theorem anyError {p : Parser ε τ α} (hp : Sat p Q E) : Sat p Q fun _ => True := hp.weaken fun _ _ => trivial

theorem lift {x : Except ε α} (hok : ∀ a, x = .ok a → Q a) (herror : ∀ e, x = .error e → E e) :
    Sat (liftM x : Parser ε τ α) Q E := by
  intro bs
  cases x with
  | error e => exact herror e rfl
  | ok a => exact hok a rfl

theorem next {e : ε} (h : E e) : Sat (next e : Parser ε τ τ) (fun _ => True) E := by
  intro bs
  cases bs with
  | nil => exact h
  | cons b bs => trivial

theorem takeN {e : ε} (h : E e) (n : Nat) : Sat (takeN e n : Parser ε τ (List τ)) (fun a => a.length = n) E := by
  intro bs
  by_cases hn : n ≤ bs.length
  · simp [Parser.takeN, hn]
  · simpa [Parser.takeN, hn] using h

/-- A loop keeps what each round keeps. -/
theorem foldlM {σ : Type} {f : σ → ι → Parser ε τ σ} {is : List ι} (I : σ → Prop)
    (hf : ∀ s, ∀ i ∈ is, I s → Sat (f s i) I E) {s : σ} (hs : I s) : Sat (is.foldlM f s) I E := by
  induction is generalizing s with
  | nil => exact pure hs
  | cons i is ih =>
    rw [List.foldlM_cons]
    exact (hf s i (by simp) hs).bind fun s' hs' => ih (fun s j hj => hf s j (by simp [hj])) hs'

/-- A counted loop, with what holds after each number of rounds. -/
theorem repeatM_count {σ : Type} {f : σ → Parser ε τ σ} (I : Nat → σ → Prop)
    (hf : ∀ k s, I k s → Sat (f s) (I (k + 1)) E) (n : Nat) {s : σ} (hs : I 0 s) : Sat (repeatM n f s) (I n) E := by
  suffices h : ∀ k s, I k s → Sat (Parser.repeatM n f s) (I (k + n)) E by simpa using h 0 s hs
  clear hs s
  induction n with
  | zero => exact fun k s hs => pure hs
  | succ n ih =>
    intro k s hs
    refine (hf k s hs).bind fun s' hs' => ?_
    rw [show k + (n + 1) = k + 1 + n by omega]
    exact ih (k + 1) s' hs'

theorem repeatM {σ : Type} {f : σ → Parser ε τ σ} (I : σ → Prop) (hf : ∀ s, I s → Sat (f s) I E) (n : Nat) {s : σ}
    (hs : I s) : Sat (repeatM n f s) I E := repeatM_count (fun _ => I) (fun _ => hf) n hs

/-- A `while` loop whose rounds bring `m` down. -/
theorem whileM {σ : Type} {e : ε} {cond : σ → Bool} {body : σ → Parser ε τ σ} (I : σ → Prop) (m : σ → Nat)
    (hb : ∀ s, I s → cond s = true → 0 < m s ∧ Sat (body s) (fun s' => I s' ∧ m s' < m s) E) {fuel : Nat} {s : σ}
    (hs : I s) (hm : m s ≤ fuel) : Sat (whileM e cond body fuel s) (fun s' => I s' ∧ cond s' = false) E := by
  induction fuel generalizing s with
  | zero =>
    cases hc : cond s with
    | true =>
      have := (hb s hs hc).1
      omega
    | false =>
      rw [Parser.whileM, if_neg (by simp [hc])]
      exact pure ⟨hs, hc⟩
  | succ fuel ih =>
    cases hc : cond s with
    | true =>
      rw [Parser.whileM, if_pos hc]
      exact (hb s hs hc).2.bind fun s' hs' => ih hs'.1 (by omega)
    | false =>
      rw [Parser.whileM, if_neg (by simp [hc])]
      exact pure ⟨hs, hc⟩

/-- A `while` loop keeps what each round keeps, whether or not its rounds
suffice. -/
theorem whileM_inv {σ : Type} {e : ε} (he : E e) {cond : σ → Bool} {body : σ → Parser ε τ σ} (I : σ → Prop)
    (hb : ∀ s, I s → Sat (body s) I E) (fuel : Nat) {s : σ} (hs : I s) :
    Sat (Parser.whileM e cond body fuel s) I E := by
  induction fuel generalizing s with
  | zero =>
    unfold Parser.whileM
    split
    · exact fail he
    · exact pure hs
  | succ fuel ih =>
    unfold Parser.whileM
    split
    · exact (hb s hs).bind fun s' hs' => ih hs'
    · exact pure hs

theorem of_ok_or {p : Parser ε τ α}
    (h : ∀ bs, (∃ a rest, p bs = .ok (a, rest) ∧ Q a) ∨ ∃ e, p bs = .error e ∧ E e) : Sat p Q E := by
  intro bs
  rcases h bs with ⟨a, rest, hb, hq⟩ | ⟨e, hb, he⟩
  · rw [hb]
    exact hq
  · rw [hb]
    exact he

end Sat

/-! ## The same loop on another state -/

section Map

variable {σ σ' : Type} (g : σ → σ')

theorem repeatM_map {f : σ → Parser ε τ σ} {f' : σ' → Parser ε τ σ'} (hf : ∀ s, f' (g s) = g <$> f s)
    (n : Nat) (s : σ) :
    repeatM n f' (g s) = g <$> repeatM n f s := by
  induction n generalizing s with
  | zero => simp [repeatM]
  | succ n ih => simp only [repeatM, hf, map_bind, ← ih, bind_map_left]

theorem whileM_map {e : ε} {cond : σ → Bool} {cond' : σ' → Bool} {body : σ → Parser ε τ σ}
    {body' : σ' → Parser ε τ σ'} (hc : ∀ s, cond' (g s) = cond s) (hb : ∀ s, body' (g s) = g <$> body s) (fuel : Nat)
    (s : σ) : whileM e cond' body' fuel (g s) = g <$> whileM e cond body fuel s := by
  induction fuel generalizing s with
  | zero =>
    simp only [whileM, hc]
    split
    · rfl
    · simp
  | succ fuel ih =>
    simp only [whileM, hc]
    split
    · simp only [hb, map_bind, ← ih, bind_map_left]
    · simp

end Map

end Parser

end Vento.Lib
