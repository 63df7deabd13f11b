import Vento.Lib.CMem
import Vento.Lib.LineEnds
import Vento.Lib.Str
import Vento.Rfb.Clipboard
/-!
# Line ends, in C and in Rust

`vento_text_to_lf` and `vento_text_to_crlf` of `vento/text.h`, and `to_lf` and `to_crlf` of `runtime/src/text.rs`, which
are the same. The C functions are `none` where they would read or write outside an object; a pointer is `none` where it
is NULL. A size wraps at 64 bits.
-/

namespace Vento.Api.Text

open Vento.Lib Vento.Lib.CMem Vento.Lib.LineEnds

def cr : UInt8 := 13

def lf : UInt8 := 10

/-- The loop of `vento_text_to_lf`: the object, and where it is written next. -/
def toLfLoop : Nat → Object → Nat → Nat → Option (Object × Nat)
  | 0, _, _, _ => none
  | fuel + 1, utf8, w, r => do
    let c ← load utf8 r
    if c = 0 then return (utf8, w)
    else if c = cr then
      let utf8 ← store utf8 w lf
      let next ← load utf8 (r + 1)
      toLfLoop fuel utf8 (w + 1) (if next = lf then r + 2 else r + 1)
    else
      let utf8 ← store utf8 w c
      toLfLoop fuel utf8 (w + 1) (r + 1)

/-- CRLF and lone CR to LF, in place. -/
def textToLf : Option Object → Option (Option Object)
  | none => some none
  | some utf8 => do
    let (utf8, w) ← toLfLoop (utf8.length + 1) utf8 0 0
    return some (← store utf8 w 0)

/-- The first loop of `vento_text_to_crlf`: the bytes, and the line ends among them. -/
def countLoop : Nat → Object → Nat → Nat → Option (Nat × Nat)
  | 0, _, _, _ => none
  | fuel + 1, utf8, n, ends => do
    let c ← load utf8 n
    if c = 0 then return (n, ends)
    else if c = lf then countLoop fuel utf8 (n + 1) (ends + 1)
    else if c = cr then
      let next ← load utf8 (n + 1)
      countLoop fuel utf8 (n + 1) (if next ≠ lf then ends + 1 else ends)
    else countLoop fuel utf8 (n + 1) ends

/-- Past the CR of a CRLF. -/
def skipCr (utf8 : Object) (c : UInt8) (r : Nat) : Option Nat :=
  if c = cr then (load utf8 (r + 1)).map fun next => if next = lf then r + 1 else r else some r

/-- Its second loop, up to `n`. -/
def toCrlfLoop : Nat → Object → Object → Nat → Nat → Nat → Option (Object × Nat)
  | 0, _, _, _, _, _ => none
  | fuel + 1, utf8, out, n, w, r =>
    if r < n then do
      let c ← load utf8 r
      if c = cr ∨ c = lf then
        let r ← skipCr utf8 c r
        let out ← store out w cr
        let out ← store out (w + 1) lf
        toCrlfLoop fuel utf8 out n (w + 2) (r + 1)
      else
        let out ← store out w c
        toCrlfLoop fuel utf8 out n (w + 1) (r + 1)
    else some (out, w)

/-- Every line end to CRLF, in a copy; NULL when out of memory. -/
def textToCrlf (m : Malloc) (utf8 : Option Object) : Option (Option Object) := do
  let utf8 := utf8.getD [0]
  let (n, ends) ← countLoop (utf8.length + 1) utf8 0 0
  match m.alloc ((n + ends + 1) % 2 ^ 64) with
  | none => return none
  | some out =>
    let (out, w) ← toCrlfLoop (utf8.length + 1) utf8 out n 0 0
    return some (← store out w 0)

/-! ## To LF -/

abbrev toLf (s : List UInt8) : List UInt8 := convert cr lf [lf] s

abbrev toCrlf (s : List UInt8) : List UInt8 := convert cr lf [cr, lf] s

theorem cr_ne_lf : cr ≠ lf := by decide

/-- What is written in place of what was read before it. -/
theorem store_gap (out gap : Object) (c v : UInt8) (t : Object) :
    ∃ gap' : Object, gap'.length = gap.length ∧
      store (out ++ (gap ++ c :: t)) out.length v = some ((out ++ [v]) ++ (gap' ++ t)) := by
  cases gap with
  | nil =>
    refine ⟨[], rfl, ?_⟩
    rw [List.nil_append, store_append, List.append_assoc]
    rfl
  | cons g gap =>
    refine ⟨gap ++ [c], by rw [List.length_append]; rfl, ?_⟩
    rw [List.cons_append, store_append]
    simp

theorem load_gap (out gap : Object) (c : UInt8) (t : Object) :
    load (out ++ (gap ++ c :: t)) (out.length + gap.length) = some c := by
  rw [load_append_add, load_append]

theorem toLfLoop_plain (fuel : Nat) {utf8 utf8' : Object} {w r : Nat} {c : UInt8} (hc : load utf8 r = some c) (h0 : c ≠ 0)
    (hcr : c ≠ cr) (hstore : store utf8 w c = some utf8') :
    toLfLoop (fuel + 1) utf8 w r = toLfLoop fuel utf8' (w + 1) (r + 1) := by
  rw [toLfLoop, hc, Option.bind_eq_bind, Option.bind_some, if_neg h0, if_neg hcr, hstore]
  rfl

theorem toLfLoop_cr (fuel : Nat) {utf8 utf8' : Object} {w r : Nat} {next : UInt8} (hc : load utf8 r = some cr)
    (hstore : store utf8 w lf = some utf8') (hnext : load utf8' (r + 1) = some next) :
    toLfLoop (fuel + 1) utf8 w r = toLfLoop fuel utf8' (w + 1) (if next = lf then r + 2 else r + 1) := by
  rw [toLfLoop, hc, Option.bind_eq_bind, Option.bind_some, if_neg (by decide), if_pos rfl, hstore, Option.bind_eq_bind,
    Option.bind_some, hnext]
  rfl

/-- The loop between `out`, which is written, and `t`, which is still to be read. -/
def lfAt (fuel : Nat) (out gap t : Object) : Option (Object × Nat) :=
  toLfLoop fuel (out ++ (gap ++ t)) out.length (out.length + gap.length)

theorem lfAt_nul (fuel : Nat) (out gap t : Object) :
    lfAt (fuel + 1) out gap (0 :: t) = some (out ++ (gap ++ 0 :: t), out.length) := by
  rw [lfAt, toLfLoop, load_gap]
  rfl

theorem lfAt_plain (fuel : Nat) (out gap : Object) {c : UInt8} (h0 : c ≠ 0) (hcr : c ≠ cr) (t : Object) :
    ∃ gap' : Object, gap'.length = gap.length ∧ lfAt (fuel + 1) out gap (c :: t) = lfAt fuel (out ++ [c]) gap' t := by
  obtain ⟨gap', hlen, hstore⟩ := store_gap out gap c c t
  refine ⟨gap', hlen, ?_⟩
  rw [lfAt, lfAt, toLfLoop_plain fuel (load_gap out gap c t) h0 hcr hstore, List.length_append, List.length_singleton, hlen,
    Nat.add_right_comm]

theorem lfAt_crlf (fuel : Nat) (out gap t : Object) :
    ∃ gap' : Object, gap'.length = gap.length + 1 ∧ lfAt (fuel + 1) out gap (cr :: lf :: t) = lfAt fuel (out ++ [lf]) gap' t := by
  obtain ⟨gap', hlen, hstore⟩ := store_gap out gap cr lf (lf :: t)
  have hnext := load_gap (out ++ [lf]) gap' lf t
  have hlen' : (gap' ++ [lf]).length = gap.length + 1 := by rw [List.length_append, hlen, List.length_singleton]
  refine ⟨gap' ++ [lf], hlen', ?_⟩
  rw [List.length_append, hlen, List.length_singleton, Nat.add_right_comm] at hnext
  rw [lfAt, lfAt, toLfLoop_cr fuel (load_gap out gap cr _) hstore hnext, if_pos rfl, hlen', List.length_append, List.length_singleton,
    List.append_assoc gap', Nat.add_add_add_comm, Nat.add_comm 1 1, Nat.add_assoc]
  rfl

theorem lfAt_cr (fuel : Nat) (out gap : Object) {d : UInt8} (hd : d ≠ lf) (t : Object) :
    ∃ gap' : Object, gap'.length = gap.length ∧ lfAt (fuel + 1) out gap (cr :: d :: t) = lfAt fuel (out ++ [lf]) gap' (d :: t) := by
  obtain ⟨gap', hlen, hstore⟩ := store_gap out gap cr lf (d :: t)
  have hnext := load_gap (out ++ [lf]) gap' d t
  refine ⟨gap', hlen, ?_⟩
  rw [List.length_append, hlen, List.length_singleton, Nat.add_right_comm] at hnext
  rw [lfAt, lfAt, toLfLoop_cr fuel (load_gap out gap cr _) hstore hnext, if_neg hd, hlen, List.length_append, List.length_singleton,
    Nat.add_right_comm]

/-- What is after a text is not an LF, where what is after its first byte is not. -/
theorem head_append {s : List UInt8} (hs : s.head? ≠ some lf) (post : Object) :
    ∃ d t, s ++ 0 :: post = d :: t ∧ d ≠ lf := by
  cases s with
  | nil => exact ⟨0, post, rfl, by decide⟩
  | cons d s => exact ⟨d, s ++ 0 :: post, rfl, fun h => hs (congrArg some h)⟩

theorem toLf_plain {c : UInt8} (hcr : c ≠ cr) (hlf : c ≠ lf) (s : List UInt8) : toLf (c :: s) = c :: toLf s := by
  rw [toLf, convert, lex_plain hcr hlf]
  rfl

theorem toLf_crlf (s : List UInt8) : toLf (cr :: lf :: s) = lf :: toLf s := by
  rw [toLf, convert, lex_crlf cr_ne_lf]
  rfl

theorem toLf_cr {s : List UInt8} (hs : s.head? ≠ some lf) : toLf (cr :: s) = lf :: toLf s := by
  rw [toLf, convert, LineEnds.lex_cr cr_ne_lf hs]
  rfl

theorem toLf_lf (s : List UInt8) : toLf (lf :: s) = lf :: toLf s := by
  rw [toLf, convert, lex_lf]
  rfl

/-- What one pass does is one byte of what they all do. -/
theorem lfAt_step {post out gap gap' : Object} {fuel : Nat} {v : UInt8} {s t : List UInt8} (hconv : toLf s = v :: toLf t)
    (hlen : gap'.length + 1 + t.length = gap.length + s.length)
    (hstep : lfAt (fuel + 1) out gap (s ++ 0 :: post) = lfAt fuel (out ++ [v]) gap' (t ++ 0 :: post))
    (h : ∃ gap'' : Object, gap''.length + (toLf t).length = gap'.length + t.length ∧
      lfAt fuel (out ++ [v]) gap' (t ++ 0 :: post) = some (out ++ [v] ++ toLf t ++ (gap'' ++ 0 :: post), (out ++ [v] ++ toLf t).length)) :
    ∃ gap'' : Object, gap''.length + (toLf s).length = gap.length + s.length ∧
      lfAt (fuel + 1) out gap (s ++ 0 :: post) = some (out ++ toLf s ++ (gap'' ++ 0 :: post), (out ++ toLf s).length) := by
  obtain ⟨gap'', hlen', heq⟩ := h
  refine ⟨gap'', ?_, ?_⟩
  · rw [hconv, List.length_cons]
    omega
  · rw [hstep, heq, hconv, List.append_assoc out [v], List.singleton_append]

theorem lfAt_eq (post : Object) {s : List UInt8} (hs : 0 ∉ s) {fuel : Nat} (hfuel : s.length ≤ fuel) (out gap : Object) :
    ∃ gap' : Object, gap'.length + (toLf s).length = gap.length + s.length ∧
      lfAt (fuel + 1) out gap (s ++ 0 :: post) = some (out ++ toLf s ++ (gap' ++ 0 :: post), (out ++ toLf s).length) := by
  induction s using LineEnds.induction cr lf generalizing fuel out gap with
  | nil =>
    refine ⟨gap, rfl, ?_⟩
    rw [List.nil_append, lfAt_nul, show toLf [] = [] from rfl, List.append_nil]
  | crlf s ih =>
    obtain ⟨gap', hlen, hstep⟩ := lfAt_crlf fuel out gap (s ++ 0 :: post)
    rw [List.length_cons, List.length_cons] at hfuel
    obtain ⟨fuel, rfl⟩ := Nat.exists_eq_succ_of_ne_zero (show fuel ≠ 0 by omega)
    refine lfAt_step (toLf_crlf s) ?_ hstep (ih (fun h => hs (.tail _ (.tail _ h))) (by omega) (out ++ [lf]) gap')
    simp only [List.length_cons]
    omega
  | lone s hhead ih =>
    obtain ⟨d, t, ht, hd⟩ := head_append hhead post
    obtain ⟨gap', hlen, hstep⟩ := lfAt_cr fuel out gap hd t
    rw [← ht] at hstep
    rw [List.length_cons] at hfuel
    obtain ⟨fuel, rfl⟩ := Nat.exists_eq_succ_of_ne_zero (show fuel ≠ 0 by omega)
    refine lfAt_step (toLf_cr hhead) ?_ hstep (ih (fun h => hs (.tail _ h)) (by omega) (out ++ [lf]) gap')
    rw [List.length_cons]
    omega
  | feed s ih =>
    obtain ⟨gap', hlen, hstep⟩ := lfAt_plain fuel out gap (show lf ≠ 0 by decide) (show lf ≠ cr by decide) (s ++ 0 :: post)
    rw [List.length_cons] at hfuel
    obtain ⟨fuel, rfl⟩ := Nat.exists_eq_succ_of_ne_zero (show fuel ≠ 0 by omega)
    refine lfAt_step (toLf_lf s) ?_ hstep (ih (fun h => hs (.tail _ h)) (by omega) (out ++ [lf]) gap')
    rw [List.length_cons]
    omega
  | plain c s hcr hlf ih =>
    have h0 : c ≠ 0 := fun h => hs (h ▸ List.mem_cons_self)
    obtain ⟨gap', hlen, hstep⟩ := lfAt_plain fuel out gap h0 hcr (s ++ 0 :: post)
    rw [List.length_cons] at hfuel
    obtain ⟨fuel, rfl⟩ := Nat.exists_eq_succ_of_ne_zero (show fuel ≠ 0 by omega)
    refine lfAt_step (toLf_plain hcr hlf s) ?_ hstep (ih (fun h => hs (.tail _ h)) (by omega) (out ++ [c]) gap')
    rw [List.length_cons]
    omega

/-- The object starts with the text converted, and is as long as it was. -/
theorem textToLf_eq (post : Object) {s : List UInt8} (hs : 0 ∉ s) :
    ∃ rest : Object, (toLf s ++ 0 :: rest).length = (s ++ 0 :: post).length ∧
      textToLf (some (s ++ 0 :: post)) = some (some (toLf s ++ 0 :: rest)) := by
  have hfuel : s.length ≤ (s ++ 0 :: post).length := by simp
  obtain ⟨gap, hlen, hloop⟩ := lfAt_eq post hs hfuel [] []
  rw [lfAt] at hloop
  simp only [List.nil_append, List.length_nil, Nat.add_zero, Nat.zero_add] at hloop hlen
  obtain ⟨rest, hstore, hrest⟩ : ∃ rest : Object, store (toLf s ++ (gap ++ 0 :: post)) (toLf s).length 0 = some (toLf s ++ 0 :: rest) ∧
      rest.length = gap.length + post.length := by
    obtain ⟨gap', hgap, hstore⟩ := store_gap (toLf s) gap 0 0 post
    refine ⟨gap' ++ post, ?_, by rw [List.length_append, hgap]⟩
    rw [hstore, List.append_assoc]
    rfl
  refine ⟨rest, ?_, ?_⟩
  · rw [List.length_append, List.length_append, List.length_cons, List.length_cons]
    omega
  · simp only [textToLf, hloop, hstore, Option.bind_eq_bind, Option.bind_some]
    rfl

/-! ## To CRLF -/

theorem countLoop_nul (fuel : Nat) (pre t : Object) (ends : Nat) :
    countLoop (fuel + 1) (pre ++ 0 :: t) pre.length ends = some (pre.length, ends) := by
  rw [countLoop, load_append]
  rfl

/-- An LF counts, and a CR that no LF comes after. -/
theorem countLoop_cons (fuel : Nat) (pre : Object) {c : UInt8} (h0 : c ≠ 0) (d : UInt8) (t : Object) (n : Nat) :
    countLoop (fuel + 1) (pre ++ c :: d :: t) pre.length n =
      countLoop fuel ((pre ++ [c]) ++ d :: t) (pre ++ [c]).length (if c = lf ∨ c = cr ∧ d ≠ lf then n + 1 else n) := by
  have hnext : load (pre ++ c :: d :: t) (pre.length + 1) = some d := load_append_add pre (c :: d :: t) 1
  have hpre : (pre ++ [c]) ++ d :: t = pre ++ c :: d :: t := List.append_assoc _ _ _
  rw [countLoop, load_append, Option.bind_eq_bind, Option.bind_some, if_neg h0, hpre, List.length_append, List.length_singleton]
  by_cases hlf : c = lf
  · rw [if_pos hlf, if_pos (.inl hlf)]
  · rw [if_neg hlf]
    by_cases hcr : c = cr
    · rw [if_pos hcr, hnext, Option.bind_some]
      simp only [hcr, cr_ne_lf, true_and, false_or]
    · rw [if_neg hcr, if_neg (by simp [hlf, hcr])]

/-- The text is counted to its end: its bytes, and its line ends. -/
theorem countLoop_eq (post : Object) {s : List UInt8} (hs : 0 ∉ s) {fuel : Nat} (hfuel : s.length ≤ fuel) (pre : Object) (n : Nat) :
    countLoop (fuel + 1) (pre ++ (s ++ 0 :: post)) pre.length n = some ((pre ++ s).length, n + ends cr lf s) := by
  -- What is after a byte of the text is a byte of it, or its NUL.
  have hhead : ∀ s : List UInt8, ∃ d t, s ++ 0 :: post = d :: t := fun s =>
    match s with
    | [] => ⟨0, post, rfl⟩
    | d :: s => ⟨d, s ++ 0 :: post, rfl⟩
  induction s using LineEnds.induction cr lf generalizing fuel pre n with
  | nil =>
    rw [List.nil_append, countLoop_nul, List.append_nil]
    rfl
  | crlf s ih =>
    rw [List.length_cons, List.length_cons] at hfuel
    obtain ⟨fuel, rfl⟩ := Nat.exists_eq_add_of_le' (show 2 ≤ fuel by omega)
    obtain ⟨d, t, ht⟩ := hhead s
    rw [List.cons_append, List.cons_append, countLoop_cons _ _ (by decide), if_neg (by decide), ht, countLoop_cons _ _ (by decide),
      if_pos (.inl rfl), ← ht, ih (fun h => hs (.tail _ (.tail _ h))) (by omega), ends_of_none (lex_crlf cr_ne_lf s), List.append_assoc,
      List.append_assoc, Nat.add_right_comm]
    rfl
  | lone s hlone ih =>
    rw [List.length_cons] at hfuel
    obtain ⟨fuel, rfl⟩ := Nat.exists_eq_add_of_le' (show 1 ≤ fuel by omega)
    obtain ⟨d, t, ht, hd⟩ := head_append hlone post
    rw [List.cons_append, ht, countLoop_cons _ _ (by decide), if_pos (.inr ⟨rfl, hd⟩), ← ht, ih (fun h => hs (.tail _ h)) (by omega),
      ends_of_none (lex_cr cr_ne_lf hlone), List.append_assoc, Nat.add_right_comm]
    rfl
  | feed s ih =>
    rw [List.length_cons] at hfuel
    obtain ⟨fuel, rfl⟩ := Nat.exists_eq_add_of_le' (show 1 ≤ fuel by omega)
    obtain ⟨d, t, ht⟩ := hhead s
    rw [List.cons_append, ht, countLoop_cons _ _ (by decide), if_pos (.inl rfl), ← ht, ih (fun h => hs (.tail _ h)) (by omega),
      ends_of_none (lex_lf s), List.append_assoc, Nat.add_right_comm]
    rfl
  | plain c s hcr hlf ih =>
    rw [List.length_cons] at hfuel
    obtain ⟨fuel, rfl⟩ := Nat.exists_eq_add_of_le' (show 1 ≤ fuel by omega)
    have h0 : c ≠ 0 := fun h => hs (h ▸ List.mem_cons_self)
    obtain ⟨d, t, ht⟩ := hhead s
    rw [List.cons_append, ht, countLoop_cons _ _ h0, if_neg (by simp [hcr, hlf]), ← ht, ih (fun h => hs (.tail _ h)) (by omega),
      ends_plain hcr hlf, List.append_assoc]
    rfl

/-- The second loop between the text it has read, `pre`, and `s`, and between what it has written and what is left of the
object. -/
def crlfAt (fuel : Nat) (pre s post out fresh : Object) : Option (Object × Nat) :=
  toCrlfLoop fuel (pre ++ (s ++ 0 :: post)) (out ++ fresh) (pre.length + s.length) out.length pre.length

theorem crlfAt_nil (fuel : Nat) (pre post out fresh : Object) :
    crlfAt (fuel + 1) pre [] post out fresh = some (out ++ fresh, out.length) := by
  rw [crlfAt, toCrlfLoop, if_neg (by simp)]

theorem crlfAt_plain (fuel : Nat) (pre : Object) {c : UInt8} (hcr : c ≠ cr) (hlf : c ≠ lf) (s post out : Object) {fresh : Object}
    (hroom : 0 < fresh.length) :
    crlfAt (fuel + 1) pre (c :: s) post out fresh = crlfAt fuel (pre ++ [c]) s post (out ++ [c]) (fresh.drop 1) := by
  have hlt : pre.length < pre.length + (c :: s).length := by simp
  rw [crlfAt, toCrlfLoop, if_pos hlt, List.cons_append, load_append, Option.bind_eq_bind, Option.bind_some,
    if_neg (by simp [hcr, hlf]), store_fresh hroom, Option.bind_eq_bind, Option.bind_some, crlfAt, List.append_assoc pre, List.length_append,
    List.length_append, List.length_cons, List.length_singleton, Nat.add_comm s.length, ← Nat.add_assoc]
  rfl

/-- A line end: what of it was read, `e`, and two bytes written. -/
theorem toCrlfLoop_end (fuel : Nat) {utf8 out fresh : Object} {n r r' : Nat} {c : UInt8} (hlt : r < n) (hc : load utf8 r = some c)
    (hend : c = cr ∨ c = lf)
    (hnext : skipCr utf8 c r = some r') (hroom : 1 < fresh.length) :
    toCrlfLoop (fuel + 1) utf8 (out ++ fresh) n out.length r =
      toCrlfLoop fuel utf8 (out ++ [cr, lf] ++ fresh.drop 2) n (out.length + 2) (r' + 1) := by
  have hroom' : 0 < (fresh.drop 1).length := by
    rw [List.length_drop]
    omega
  have hsnd := @store_fresh (out ++ [cr]) _ hroom' lf
  rw [List.length_append, List.length_singleton, List.drop_drop, List.append_assoc out] at hsnd
  rw [toCrlfLoop, if_pos hlt, hc, Option.bind_eq_bind, Option.bind_some, if_pos hend, hnext, Option.bind_eq_bind, Option.bind_some,
    store_fresh (by omega) cr, Option.bind_eq_bind, Option.bind_some, List.append_assoc out, hsnd, Option.bind_some,
    List.append_assoc out [cr]]
  rfl

theorem crlfAt_end (fuel : Nat) (pre : Object) {c : UInt8} {e s post : Object} (out : Object) {fresh : Object} (hend : c = cr ∨ c = lf)
    (hnext : skipCr (pre ++ (c :: (e ++ s) ++ 0 :: post)) c pre.length = some (pre.length + e.length)) (hroom : 1 < fresh.length) :
    crlfAt (fuel + 1) pre (c :: (e ++ s)) post out fresh = crlfAt fuel (pre ++ c :: e) s post (out ++ [cr, lf]) (fresh.drop 2) := by
  have hlt : pre.length < pre.length + (c :: (e ++ s)).length := by simp
  have hlen : (pre ++ c :: e).length = pre.length + e.length + 1 := by simp; omega
  have hn : pre.length + (c :: (e ++ s)).length = (pre ++ c :: e).length + s.length := by simp; omega
  have hpre : pre ++ (c :: (e ++ s) ++ 0 :: post) = (pre ++ c :: e) ++ (s ++ 0 :: post) := by simp
  have hc : load (pre ++ (c :: (e ++ s) ++ 0 :: post)) pre.length = some c := load_append pre c _
  have hout : out.length + 2 = (out ++ [cr, lf]).length := by simp
  rw [crlfAt, toCrlfLoop_end fuel hlt hc hend hnext hroom, crlfAt, hn, hlen, hpre, hout]

theorem toCrlf_of_none {s t : List UInt8} (h : lex cr lf s = none :: lex cr lf t) : toCrlf s = [cr, lf] ++ toCrlf t := by
  rw [toCrlf, convert, h]
  rfl

/-- What one line end does is two bytes of what they all do. -/
theorem crlfAt_step {fuel : Nat} {pre pre' s t post out fresh : Object} (hconv : toCrlf s = [cr, lf] ++ toCrlf t)
    (hstep : crlfAt (fuel + 1) pre s post out fresh = crlfAt fuel pre' t post (out ++ [cr, lf]) (fresh.drop 2))
    (h : crlfAt fuel pre' t post (out ++ [cr, lf]) (fresh.drop 2) =
      some (out ++ [cr, lf] ++ toCrlf t ++ (fresh.drop 2).drop (toCrlf t).length, (out ++ [cr, lf] ++ toCrlf t).length)) :
    crlfAt (fuel + 1) pre s post out fresh =
      some (out ++ toCrlf s ++ fresh.drop (toCrlf s).length, (out ++ toCrlf s).length) := by
  have hlen : ([cr, lf] ++ toCrlf t).length = 2 + (toCrlf t).length := List.length_append
  rw [hstep, h, hconv, List.append_assoc out, List.drop_drop, hlen]

theorem crlfAt_eq (post : Object) {s : List UInt8} {fuel : Nat} (hfuel : s.length ≤ fuel) (pre out : Object) {fresh : Object}
    (hroom : (toCrlf s).length ≤ fresh.length) :
    crlfAt (fuel + 1) pre s post out fresh =
      some (out ++ toCrlf s ++ fresh.drop (toCrlf s).length, (out ++ toCrlf s).length) := by
  -- Two bytes have room, and what the rest of the text is converted to has it after them.
  have hroom' : ∀ {s t fresh : Object}, toCrlf s = [cr, lf] ++ toCrlf t → (toCrlf s).length ≤ fresh.length →
      1 < fresh.length ∧ (toCrlf t).length ≤ (fresh.drop 2).length := by
    intro s t fresh hconv hroom
    rw [hconv, List.length_append, List.length_cons, List.length_singleton] at hroom
    rw [List.length_drop]
    omega
  induction s using LineEnds.induction cr lf generalizing fuel pre out fresh with
  | nil => rw [crlfAt_nil, show toCrlf [] = [] from rfl, List.append_nil]; rfl
  | crlf s ih =>
    have hconv := toCrlf_of_none (lex_crlf cr_ne_lf s)
    obtain ⟨htwo, hrest⟩ := hroom' hconv hroom
    rw [List.length_cons, List.length_cons] at hfuel
    obtain ⟨fuel, rfl⟩ := Nat.exists_eq_add_of_le' (show 1 ≤ fuel by omega)
    have hnext : skipCr (pre ++ (cr :: ([lf] ++ s) ++ 0 :: post)) cr pre.length = some (pre.length + [lf].length) := by
      have hload : load (pre ++ (cr :: ([lf] ++ s) ++ 0 :: post)) (pre.length + 1) = some lf := load_append_add pre _ 1
      rw [skipCr, if_pos rfl, hload]
      rfl
    exact crlfAt_step hconv (crlfAt_end _ pre out (.inl rfl) hnext htwo) (ih (by omega) _ _ hrest)
  | lone s hlone ih =>
    have hconv := toCrlf_of_none (lex_cr cr_ne_lf hlone)
    obtain ⟨htwo, hrest⟩ := hroom' hconv hroom
    rw [List.length_cons] at hfuel
    obtain ⟨fuel, rfl⟩ := Nat.exists_eq_add_of_le' (show 1 ≤ fuel by omega)
    obtain ⟨d, t, ht, hd⟩ := head_append hlone post
    have hnext : skipCr (pre ++ (cr :: ([] ++ s) ++ 0 :: post)) cr pre.length = some (pre.length + ([] : Object).length) := by
      have hload : load (pre ++ (cr :: ([] ++ s) ++ 0 :: post)) (pre.length + 1) = some d := by
        rw [List.nil_append, List.cons_append, ht]
        exact load_append_add pre _ 1
      rw [skipCr, if_pos rfl, hload, Option.map_some, if_neg hd]
      rfl
    exact crlfAt_step hconv (crlfAt_end _ pre out (.inl rfl) hnext htwo) (ih (by omega) _ _ hrest)
  | feed s ih =>
    have hlex : lex cr lf (lf :: s) = none :: lex cr lf s := lex_lf s
    have hconv := toCrlf_of_none hlex
    obtain ⟨htwo, hrest⟩ := hroom' hconv hroom
    rw [List.length_cons] at hfuel
    obtain ⟨fuel, rfl⟩ := Nat.exists_eq_add_of_le' (show 1 ≤ fuel by omega)
    have hnext : skipCr (pre ++ (lf :: ([] ++ s) ++ 0 :: post)) lf pre.length = some (pre.length + ([] : Object).length) := rfl
    exact crlfAt_step hconv (crlfAt_end _ pre out (.inr rfl) hnext htwo) (ih (by omega) _ _ hrest)
  | plain c s hcr hlf ih =>
    have hconv : toCrlf (c :: s) = c :: toCrlf s := by
      rw [toCrlf, convert, lex_plain hcr hlf]
      rfl
    rw [hconv, List.length_cons] at hroom
    rw [List.length_cons] at hfuel
    obtain ⟨fuel, rfl⟩ := Nat.exists_eq_add_of_le' (show 1 ≤ fuel by omega)
    rw [crlfAt_plain _ pre hcr hlf s post out (show 0 < fresh.length by omega), ih (by omega) _ _ (by rw [List.length_drop]; omega), hconv,
      List.append_assoc out, List.singleton_append, List.drop_drop, List.length_cons, Nat.add_comm 1]

/-- No line end makes the text longer by more than a byte, so the copy has room for it all. -/
theorem length_toCrlf_le (s : List UInt8) : (toCrlf s).length ≤ s.length + ends cr lf s := by
  have hrender := length_render [cr, lf] (lex cr lf s)
  have hlex : (lex cr lf s).length ≤ s.length := length_lexFrom_le false s
  rw [List.length_cons, List.length_singleton] at hrender
  unfold toCrlf convert ends
  omega

theorem ends_le (s : List UInt8) : ends cr lf s ≤ s.length := by
  have hlex : (lex cr lf s).length ≤ s.length := length_lexFrom_le false s
  exact List.countP_le_length.trans hlex

/-- The copy is the text converted, in an object of the size that was asked for. -/
theorem textToCrlf_eq (m : Malloc) {s : List UInt8} (hs : 0 ∉ s) (post : Object) (hsize : (s ++ 0 :: post).length < 2 ^ 63) :
    textToCrlf m (some (s ++ 0 :: post)) =
      some ((m.alloc (s.length + ends cr lf s + 1)).map fun fresh => toCrlf s ++ 0 :: fresh.drop ((toCrlf s).length + 1)) := by
  have hfuel : s.length ≤ (s ++ 0 :: post).length := by simp
  have hlt : s.length + 1 ≤ (s ++ 0 :: post).length := by simp
  have hends := ends_le s
  have hcount := countLoop_eq post hs hfuel [] 0
  rw [List.nil_append, List.nil_append, List.length_nil, Nat.zero_add] at hcount
  unfold textToCrlf
  rw [Option.getD_some]
  simp only [hcount, Option.bind_eq_bind, Option.bind_some]
  rw [Nat.mod_eq_of_lt (by omega)]
  cases halloc : m.alloc (s.length + ends cr lf s + 1) with
  | none => rfl
  | some fresh =>
    have hlen := m.length_eq _ _ halloc
    have hle := length_toCrlf_le s
    have hloop := crlfAt_eq post hfuel [] [] (show (toCrlf s).length ≤ fresh.length by omega)
    rw [crlfAt] at hloop
    simp only [List.nil_append, List.length_nil, Nat.zero_add] at hloop
    have hroom : 0 < (fresh.drop (toCrlf s).length).length := by
      rw [List.length_drop]
      omega
    simp only [hloop, Option.bind_some, store_fresh hroom, Option.map_some, List.drop_drop, List.append_assoc, List.singleton_append]
    rfl

/-! ## In Rust -/

/-- `replace` twice is what reads each line end once. -/
theorem toLf_eq_convert (s : Str) : Runtime.toLf s = convert '\r' '\n' ['\n'] s := by
  have hne : '\r' ≠ '\n' := by decide
  induction s using LineEnds.induction '\r' '\n' with
  | nil => rfl
  | crlf s ih =>
    rw [convert, lex_crlf hne]
    exact congrArg ('\n' :: ·) ih
  | lone s hlone ih =>
    have hdrop : Runtime.dropCr ('\r' :: s) = '\r' :: Runtime.dropCr s := by
      rw [Runtime.dropCr]
      rintro cs - rfl
      exact hlone rfl
    rw [convert, lex_cr hne hlone, Runtime.toLf, hdrop]
    exact congrArg ('\n' :: ·) ih
  | feed s ih =>
    rw [convert, lex_lf]
    exact congrArg ('\n' :: ·) ih
  | plain c s hcr hlf ih =>
    have hdrop : Runtime.dropCr (c :: s) = c :: Runtime.dropCr s := by
      rw [Runtime.dropCr]
      rintro cs rfl
      exact absurd rfl hcr
    rw [convert, lex_plain hcr hlf, Runtime.toLf, hdrop, List.map_cons, if_neg hcr]
    exact congrArg (c :: ·) ih

theorem toCrlf_eq_convert (s : Str) : Runtime.toCrlf s = convert '\r' '\n' ['\r', '\n'] s := by
  rw [Runtime.toCrlf, toLf_eq_convert, convert, convert]
  have hplain : Plain '\r' '\n' (lex '\r' '\n' s) := plain_lexFrom false s
  generalize lex '\r' '\n' s = ts at hplain
  induction ts with
  | nil => rfl
  | cons t ts ih =>
    have ih := ih fun c hc => hplain c (.tail _ hc)
    cases t with
    | none =>
      rw [render_none, render_none, List.flatMap_append, ih]
      rfl
    | some c =>
      have hc : c ≠ '\n' := (hplain c List.mem_cons_self).2
      rw [render_some, render_some, List.flatMap_cons, if_neg hc, ih]
      rfl

/-- Nothing but a CR and an LF has a byte that is one of theirs. -/
theorem bytes_convert (ending s : Str) :
    Str.bytes (convert '\r' '\n' ending s) = convert cr lf (Str.bytes ending) (Str.bytes s) := by
  have henc : ∀ c, c ≠ '\r' → c ≠ '\n' →
      String.utf8EncodeChar c ≠ [] ∧ ∀ x ∈ String.utf8EncodeChar c, x ≠ cr ∧ x ≠ lf := by
    intro c hcr hlf
    refine ⟨fun hnil => ?_, fun x hx => ⟨?_, ?_⟩⟩
    · have hlen := String.length_utf8EncodeChar c
      rw [hnil] at hlen
      exact absurd hlen (Nat.ne_of_lt c.utf8Size_pos)
    · rintro rfl
      exact hcr (Char.toNat_inj.1 (Str.toNat_of_mem_encode hx (by decide)))
    · rintro rfl
      exact hlf (Char.toNat_inj.1 (Str.toNat_of_mem_encode hx (by decide)))
  exact (convert_flatMap (by decide) (by decide) cr_ne_lf henc ending s).symm

theorem bytes_toLf (s : Str) : Str.bytes (Runtime.toLf s) = toLf (Str.bytes s) := by
  rw [toLf_eq_convert, bytes_convert]
  rfl

theorem bytes_toCrlf (s : Str) : Str.bytes (Runtime.toCrlf s) = toCrlf (Str.bytes s) := by
  rw [toCrlf_eq_convert, bytes_convert]
  rfl

theorem zero_not_mem_bytes {s : Str} (hs : '\x00' ∉ s) : 0 ∉ Str.bytes s := by
  intro h
  obtain ⟨c, hc, hzero⟩ := Str.mem_of_mem_bytes h (by decide)
  obtain rfl : c = '\x00' := Char.toNat_inj.1 hzero
  exact hs hc

/-! ## The two are one -/

/-- How many line ends a text has, a CRLF being one. -/
def lineEnds (s : Str) : Nat := ends '\r' '\n' s

/-- What the C functions make of a string in memory is what the Rust ones make of it. They stay inside the object they are
given and the one they allocate, which NULL stands for when there is none to be had; and a conversion loses nothing but
which line ends there were. -/
theorem conversions_agree (m : Malloc) (s : Str) (hs : '\x00' ∉ s) (post : Object) (hsize : (Str.bytes s ++ 0 :: post).length < 2 ^ 63) :
    (∃ utf8, textToLf (some (Str.bytes s ++ 0 :: post)) = some (some utf8) ∧
      utf8.length = (Str.bytes s ++ 0 :: post).length ∧ cstr utf8 = Str.bytes (Runtime.toLf s)) ∧
    (∃ size out, textToCrlf m (some (Str.bytes s ++ 0 :: post)) = some out ∧ (out = none ↔ m.alloc size = none) ∧
      ∀ copy, out = some copy → copy.length = size ∧ cstr copy = Str.bytes (Runtime.toCrlf s)) ∧
    Runtime.toLf (Runtime.toLf s) = Runtime.toLf s ∧ Runtime.toCrlf (Runtime.toCrlf s) = Runtime.toCrlf s ∧
    Runtime.toLf (Runtime.toCrlf s) = Runtime.toLf s ∧ Runtime.toCrlf (Runtime.toLf s) = Runtime.toCrlf s ∧
    lineEnds (Runtime.toLf s) = lineEnds s ∧ lineEnds (Runtime.toCrlf s) = lineEnds s := by
  have hzero := zero_not_mem_bytes hs
  have hlf : Ending '\r' '\n' ['\n'] := ending_lf
  have hcrlf : Ending '\r' '\n' ['\r', '\n'] := ending_crlf (by decide)
  refine ⟨?_, ?_, ?_, ?_, ?_, ?_, ?_, ?_⟩
  · obtain ⟨rest, hlen, heq⟩ := textToLf_eq post hzero
    refine ⟨_, heq, hlen, ?_⟩
    rw [cstr_append (fun h => (mem_convert h).elim (by decide) hzero), bytes_toLf]
  · refine ⟨_, _, textToCrlf_eq m hzero post hsize, Option.map_eq_none_iff, fun copy hcopy => ?_⟩
    obtain ⟨fresh, hfresh, rfl⟩ := Option.map_eq_some_iff.1 hcopy
    have hlen := m.length_eq _ _ hfresh
    have hle := length_toCrlf_le (Str.bytes s)
    refine ⟨?_, ?_⟩
    · rw [List.length_append, List.length_cons, List.length_drop]
      omega
    · rw [cstr_append (fun h => (mem_convert h).elim (by decide) hzero), bytes_toCrlf]
  · simp only [toLf_eq_convert]
    exact convert_convert hlf _ s
  · simp only [toCrlf_eq_convert]
    exact convert_convert hcrlf _ s
  · simp only [toLf_eq_convert, toCrlf_eq_convert]
    exact convert_convert hcrlf _ s
  · simp only [toLf_eq_convert, toCrlf_eq_convert]
    exact convert_convert hlf _ s
  · rw [toLf_eq_convert]
    exact ends_convert hlf s
  · rw [toCrlf_eq_convert]
    exact ends_convert hcrlf s

/-- A CR, a CRLF and an LF, with zeros where they are copied to. -/
theorem conversions_agree_mixed :
    ∃ utf8, textToLf (some (Str.bytes ['\r', '\r', '\n', 'a', '\n'] ++ 0 :: [7])) = some (some utf8) ∧
      utf8.length = 7 ∧ cstr utf8 = Str.bytes ['\n', '\n', 'a', '\n'] :=
  (conversions_agree ⟨fun n => some (List.replicate n 0), fun n o h => Option.some.inj h ▸ List.length_replicate⟩
    ['\r', '\r', '\n', 'a', '\n'] (by decide) [7] (by decide)).1

end Vento.Api.Text
