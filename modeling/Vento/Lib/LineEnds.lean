import Mathlib.Data.List.Basic
/-!
# Line ends

A text over any alphabet with a CR and an LF is a list of line ends and of what is between them: `lex` reads it, a CRLF
being one line end as a lone CR or LF is, and `render` writes it with one ending throughout. An ending that is read as
one line end, whatever comes after it, makes `convert` lose nothing but which endings there were (`convert_convert`).
-/

namespace Vento.Lib.LineEnds

variable {α : Type}

/-- `none` is a line end. -/
def render (ending : List α) (ts : List (Option α)) : List α :=
  ts.flatMap fun t => match t with
    | none => ending
    | some c => [c]

@[simp] theorem render_nil (ending : List α) : render ending [] = [] := rfl

@[simp] theorem render_none (ending : List α) (ts : List (Option α)) : render ending (none :: ts) = ending ++ render ending ts := rfl

@[simp] theorem render_some (ending : List α) (c : α) (ts : List (Option α)) : render ending (some c :: ts) = c :: render ending ts := rfl

/-- Each line end takes as many places as the ending has. -/
theorem length_render (ending : List α) (ts : List (Option α)) :
    (render ending ts).length + ts.countP Option.isNone = ts.length + ending.length * ts.countP Option.isNone := by
  induction ts with
  | nil => simp
  | cons t ts ih =>
    cases t with
    | none =>
      rw [render_none, List.length_append, List.countP_cons_of_pos rfl, List.length_cons, Nat.mul_succ]
      omega
    | some c =>
      rw [render_some, List.length_cons, List.countP_cons_of_neg (by simp), List.length_cons]
      omega

variable [DecidableEq α] (cr lf : α)

/-- An LF that comes after a CR is part of that one's. -/
def lexFrom : Bool → List α → List (Option α)
  | _, [] => []
  | afterCr, c :: s =>
    if c = lf then if afterCr then lexFrom false s else none :: lexFrom false s
    else if c = cr then none :: lexFrom true s
    else some c :: lexFrom false s

def lex (s : List α) : List (Option α) := lexFrom cr lf false s

def convert (ending s : List α) : List α := render ending (lex cr lf s)

/-- How many line ends there are. -/
def ends (s : List α) : Nat := (lex cr lf s).countP Option.isNone

/-- What comes between line ends is neither of the two. -/
def Plain (ts : List (Option α)) : Prop := ∀ c, some c ∈ ts → c ≠ cr ∧ c ≠ lf

/-- It is read as one line end, whatever comes after it. -/
def Ending (ending : List α) : Prop := ∀ s, lex cr lf (ending ++ s) = none :: lex cr lf s

@[simp] theorem lexFrom_nil (afterCr : Bool) : lexFrom cr lf afterCr [] = [] := rfl

variable {cr lf}

theorem lexFrom_plain {afterCr : Bool} {c : α} (hcr : c ≠ cr) (hlf : c ≠ lf) (s : List α) :
    lexFrom cr lf afterCr (c :: s) = some c :: lexFrom cr lf false s := by
  rw [lexFrom, if_neg hlf, if_neg hcr]

theorem lex_plain {c : α} (hcr : c ≠ cr) (hlf : c ≠ lf) (s : List α) : lex cr lf (c :: s) = some c :: lex cr lf s :=
  lexFrom_plain hcr hlf s

theorem lex_lf (s : List α) : lex cr lf (lf :: s) = none :: lex cr lf s := by
  rw [lex, lexFrom, if_pos rfl]
  rfl

theorem lex_crlf (hne : cr ≠ lf) (s : List α) : lex cr lf (cr :: lf :: s) = none :: lex cr lf s := by
  rw [lex, lexFrom, if_neg hne, if_pos rfl, lexFrom, if_pos rfl]
  rfl

/-- A CR before anything but an LF is a line end alone. -/
theorem lex_cr (hne : cr ≠ lf) {s : List α} (hs : s.head? ≠ some lf) : lex cr lf (cr :: s) = none :: lex cr lf s := by
  rw [lex, lexFrom, if_neg hne, if_pos rfl]
  cases s with
  | nil => rfl
  | cons d s =>
    have hd : d ≠ lf := fun h => hs (congrArg some h)
    simp only [lex, lexFrom, if_neg hd]

theorem ends_of_none {s t : List α} (h : lex cr lf s = none :: lex cr lf t) : ends cr lf s = ends cr lf t + 1 := by
  rw [ends, h, List.countP_cons_of_pos rfl]
  rfl

theorem ends_plain {c : α} (hcr : c ≠ cr) (hlf : c ≠ lf) (s : List α) : ends cr lf (c :: s) = ends cr lf s := by
  rw [ends, lex_plain hcr hlf, List.countP_cons_of_neg (by simp)]
  rfl

/-- A text from its end, a line end at a time. -/
@[elab_as_elim]
theorem induction (cr lf : α) {motive : List α → Prop} (nil : motive []) (crlf : ∀ s, motive s → motive (cr :: lf :: s))
    (lone : ∀ s, s.head? ≠ some lf → motive s → motive (cr :: s)) (feed : ∀ s, motive s → motive (lf :: s))
    (plain : ∀ c s, c ≠ cr → c ≠ lf → motive s → motive (c :: s)) (s : List α) : motive s := by
  suffices h : ∀ n s, s.length ≤ n → motive s from h s.length s (Nat.le_refl _)
  intro n
  induction n with
  | zero =>
    intro s hs
    rw [List.eq_nil_of_length_eq_zero (Nat.le_zero.1 hs)]
    exact nil
  | succ n ih =>
    intro s hs
    match s, hs with
    | [], _ => exact nil
    | c :: s, hs =>
      rw [List.length_cons, Nat.succ_le_succ_iff] at hs
      by_cases hlf : c = lf
      · subst hlf
        exact feed s (ih s hs)
      · by_cases hcr : c = cr
        · subst hcr
          by_cases hhead : s.head? = some lf
          · obtain ⟨t, rfl⟩ := List.head?_eq_some_iff.1 hhead
            rw [List.length_cons] at hs
            exact crlf t (ih t (Nat.le_of_succ_le hs))
          · exact lone s hhead (ih s hs)
        · exact plain c s hcr hlf (ih s hs)

theorem ending_lf : Ending cr lf [lf] := lex_lf

theorem ending_crlf (hne : cr ≠ lf) : Ending cr lf [cr, lf] := lex_crlf hne

theorem plain_lexFrom (afterCr : Bool) (s : List α) : Plain cr lf (lexFrom cr lf afterCr s) := by
  induction s generalizing afterCr with
  | nil => exact fun c hc => nomatch hc
  | cons d s ih =>
    intro c hc
    rw [lexFrom] at hc
    split at hc
    · split at hc
      · exact ih _ c hc
      · exact ih _ c (List.mem_of_ne_of_mem (by simp) hc)
    · next hlf =>
      split at hc
      · exact ih _ c (List.mem_of_ne_of_mem (by simp) hc)
      · next hcr =>
        rcases List.mem_cons.1 hc with heq | hc
        · obtain rfl := Option.some.inj heq
          exact ⟨hcr, hlf⟩
        · exact ih _ c hc

theorem mem_of_mem_lexFrom {c : α} {afterCr : Bool} {s : List α} (h : some c ∈ lexFrom cr lf afterCr s) : c ∈ s := by
  induction s generalizing afterCr with
  | nil => exact nomatch h
  | cons d s ih =>
    rw [lexFrom] at h
    split at h
    · split at h
      · exact .tail _ (ih h)
      · exact .tail _ (ih (List.mem_of_ne_of_mem (by simp) h))
    · split at h
      · exact .tail _ (ih (List.mem_of_ne_of_mem (by simp) h))
      · rcases List.mem_cons.1 h with heq | h
        · exact List.mem_cons.2 (.inl (Option.some.inj heq))
        · exact .tail _ (ih h)

/-- A conversion has nothing that neither the text nor the ending has. -/
theorem mem_convert {c : α} {ending s : List α} (h : c ∈ convert cr lf ending s) : c ∈ ending ∨ c ∈ s := by
  obtain ⟨t, ht, hc⟩ := List.mem_flatMap.1 h
  cases t with
  | none => exact .inl hc
  | some d =>
    obtain rfl := List.mem_singleton.1 hc
    exact .inr (mem_of_mem_lexFrom ht)

/-- What is written is read back. -/
theorem lex_render {ending : List α} (he : Ending cr lf ending) {ts : List (Option α)} (hts : Plain cr lf ts) :
    lex cr lf (render ending ts) = ts := by
  induction ts with
  | nil => rfl
  | cons t ts ih =>
    have hrest := ih fun c hc => hts c (List.mem_cons_of_mem _ hc)
    cases t with
    | none => rw [render_none, he, hrest]
    | some c =>
      obtain ⟨hcr, hlf⟩ := hts c List.mem_cons_self
      rw [render_some, lex_plain hcr hlf, hrest]

theorem lex_convert {ending : List α} (he : Ending cr lf ending) (s : List α) :
    lex cr lf (convert cr lf ending s) = lex cr lf s := lex_render he (plain_lexFrom false s)

theorem convert_convert {ending : List α} (he : Ending cr lf ending) (ending' s : List α) :
    convert cr lf ending' (convert cr lf ending s) = convert cr lf ending' s := congrArg (render ending') (lex_convert he s)

theorem ends_convert {ending : List α} (he : Ending cr lf ending) (s : List α) :
    ends cr lf (convert cr lf ending s) = ends cr lf s := congrArg (List.countP Option.isNone) (lex_convert he s)

theorem length_lexFrom_le (afterCr : Bool) (s : List α) : (lexFrom cr lf afterCr s).length ≤ s.length := by
  induction s generalizing afterCr with
  | nil => exact Nat.le_refl _
  | cons c s ih =>
    have hfalse := ih false
    have htrue := ih true
    rw [lexFrom, List.length_cons]
    split
    · split
      · omega
      · rw [List.length_cons]
        omega
    · split
      · rw [List.length_cons]
        omega
      · rw [List.length_cons]
        omega

/-! ## In another alphabet -/

section
variable {β : Type} [DecidableEq β] {cr' lf' : β}

theorem lexFrom_append_plain {xs : List β} (hxs : ∀ x ∈ xs, x ≠ cr' ∧ x ≠ lf') (hne : xs ≠ []) (afterCr : Bool) (ys : List β) :
    lexFrom cr' lf' afterCr (xs ++ ys) = xs.map some ++ lexFrom cr' lf' false ys := by
  induction xs generalizing afterCr with
  | nil => exact absurd rfl hne
  | cons x xs ih =>
    obtain ⟨hcr, hlf⟩ := hxs x List.mem_cons_self
    rw [List.cons_append, lexFrom_plain hcr hlf]
    by_cases hnil : xs = []
    · rw [hnil]
      rfl
    · rw [ih (fun y hy => hxs y (List.mem_cons_of_mem _ hy)) hnil]
      rfl

variable {enc : α → List β} (hcr : enc cr = [cr']) (hlf : enc lf = [lf']) (hne : cr' ≠ lf')
  (henc : ∀ c, c ≠ cr → c ≠ lf → enc c ≠ [] ∧ ∀ x ∈ enc c, x ≠ cr' ∧ x ≠ lf')

include hcr hlf hne henc in
/-- An encoding that keeps the two, and has them nowhere else, keeps the line ends. -/
theorem lexFrom_flatMap (afterCr : Bool) (s : List α) :
    lexFrom cr' lf' afterCr (s.flatMap enc) =
      (lexFrom cr lf afterCr s).flatMap fun t => match t with
        | none => [none]
        | some c => (enc c).map some := by
  induction s generalizing afterCr with
  | nil => rfl
  | cons c s ih =>
    rw [List.flatMap_cons]
    by_cases h : c = lf
    · subst h
      rw [hlf, List.singleton_append, lexFrom, if_pos rfl, lexFrom, if_pos rfl]
      cases afterCr with
      | true => exact ih false
      | false => exact congrArg (none :: ·) (ih false)
    · by_cases h' : c = cr
      · subst h'
        rw [hcr, List.singleton_append, lexFrom, if_neg hne, if_pos rfl, lexFrom, if_neg h, if_pos rfl]
        exact congrArg (none :: ·) (ih true)
      · obtain ⟨hnil, hplain⟩ := henc c h' h
        rw [lexFrom_append_plain hplain hnil, lexFrom_plain h' h, ih false]
        rfl

include hcr hlf hne henc in
theorem convert_flatMap (ending s : List α) :
    convert cr' lf' (ending.flatMap enc) (s.flatMap enc) = (convert cr lf ending s).flatMap enc := by
  rw [convert, lex, lexFrom_flatMap hcr hlf hne henc, convert, lex]
  generalize lexFrom cr lf false s = ts
  induction ts with
  | nil => rfl
  | cons t ts ih =>
    cases t with
    | none =>
      rw [List.flatMap_cons, List.singleton_append, render_none, ih, render_none, List.flatMap_append]
    | some c =>
      have hplain : ∀ (xs : List β) (us : List (Option β)),
          render (ending.flatMap enc) (xs.map some ++ us) = xs ++ render (ending.flatMap enc) us := by
        intro xs us
        induction xs with
        | nil => rfl
        | cons x xs ih => exact congrArg (x :: ·) ih
      rw [List.flatMap_cons, hplain, ih, render_some, List.flatMap_cons]

end

end Vento.Lib.LineEnds
