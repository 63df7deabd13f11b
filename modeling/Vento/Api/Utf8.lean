import Vento.Lib.CMem
import Vento.Lib.Utf8
/-!
# Strings chosen by a server

`vento_utf8_valid` and `vento_utf8_from_bytes` of `vento/text.h`. What the first accepts is shaped like UTF-8; it does not
look at which number a sequence holds, so it accepts what is overlong, a surrogate or too large, and the second copies it.
-/

namespace Vento.Api.Text

open Vento.Lib Vento.Lib.CMem Vento.Lib.Utf8

/-- Whether the `k` bytes from `i` on continue a sequence, up to the first that does not. -/
def continued : Nat → Object → Nat → Option Bool
  | 0, _, _ => some true
  | k + 1, bytes, i => do
    let b ← load bytes i
    if ¬Continues b then return false
    else continued k bytes (i + 1)

def validLoop : Nat → Object → Nat → Nat → Option Bool
  | 0, _, _, _ => none
  | fuel + 1, bytes, n, i =>
    if i < n then do
      let c ← load bytes i
      match extra c with
      | none => return false
      | some k =>
        if i + k ≥ n then return false
        else if ← continued k bytes (i + 1) then validLoop fuel bytes n (i + k + 1)
        else return false
    else some true

/-- Whether `bytes` is valid UTF-8 up to its terminator. -/
def utf8Valid (bytes : Object) : Option Bool := do
  let n ← strlen bytes
  validLoop (n + 1) bytes n 0

/-- `memcpy`. -/
def memcpy (dst src : Object) (n : Nat) : Option Object :=
  if n ≤ dst.length ∧ n ≤ src.length then some (src.take n ++ dst.drop n) else none

/-- One code point per byte. -/
def latin1Loop : Nat → Object → Object → Nat → Nat → Nat → Option (Object × Nat)
  | 0, _, _, _, _, _ => none
  | fuel + 1, bytes, out, n, w, i =>
    if i < n then do
      let c ← load bytes i
      if c < 0x80 then
        let out ← store out w c
        latin1Loop fuel bytes out n (w + 1) (i + 1)
      else
        let out ← store out w ((0xc0 : UInt8) ||| (c >>> 6))
        let out ← store out (w + 1) ((0x80 : UInt8) ||| (c &&& 0x3f))
        latin1Loop fuel bytes out n (w + 2) (i + 1)
    else some (out, w)

/-- A string chosen by a server, as UTF-8, in a copy; NULL when out of memory. -/
def utf8FromBytes (m : Malloc) (bytes : Option Object) : Option (Option Object) := do
  let bytes := bytes.getD [0]
  let n ← strlen bytes
  if ← utf8Valid bytes then
    match m.alloc ((n + 1) % 2 ^ 64) with
    | none => return none
    | some copy => return some (← memcpy copy bytes (n + 1))
  else
    match m.alloc ((2 * n + 1) % 2 ^ 64) with
    | none => return none
    | some out =>
      let (out, w) ← latin1Loop (n + 1) bytes out n 0 0
      return some (← store out w 0)

/-! ## What is accepted -/

theorem continued_eq (pre : Object) {t : Object} (u : Object) :
    continued t.length (pre ++ (t ++ u)) pre.length = some (t.all fun b => Continues b) := by
  induction t generalizing pre with
  | nil => simp [continued]
  | cons b t ih =>
    rw [List.length_cons, continued, List.cons_append, load_append, Option.bind_eq_bind, Option.bind_some]
    by_cases hb : Continues b
    · have ih' := ih (pre ++ [b])
      rw [List.append_assoc, List.singleton_append, List.length_append, List.length_singleton] at ih'
      rw [if_neg (not_not_intro hb), ih']
      simp [hb]
    · rw [if_pos hb]
      simp [hb]

/-- The loop between what it has been through and `s`: it accepts sequences that are shaped as their lead bytes say. -/
theorem validLoop_eq (post : Object) {s : List UInt8} {fuel : Nat} (hfuel : s.length ≤ fuel) (pre : Object) :
    ∃ v, validLoop (fuel + 1) (pre ++ (s ++ 0 :: post)) (pre.length + s.length) pre.length = some v ∧ (v = true ↔ Shapes s) := by
  induction fuel generalizing s pre with
  | zero =>
    obtain rfl := List.eq_nil_of_length_eq_zero (Nat.le_zero.1 hfuel)
    exact ⟨true, by rw [validLoop, if_neg (by simp)], by simp [shapes_nil]⟩
  | succ fuel ih =>
    cases s with
    | nil => exact ⟨true, by rw [validLoop, if_neg (by simp)], by simp [shapes_nil]⟩
    | cons c s =>
      have hlt : pre.length < pre.length + (c :: s).length := by simp
      rw [validLoop, if_pos hlt, List.cons_append, load_append, Option.bind_eq_bind, Option.bind_some, shapes_cons]
      cases hextra : extra c with
      | none => exact ⟨false, rfl, by simp⟩
      | some k =>
        rw [List.length_cons] at hfuel ⊢
        by_cases hk : k ≤ s.length
        · dsimp only
          have hpre : pre ++ c :: (s ++ 0 :: post) = (pre ++ [c]) ++ (s.take k ++ (s.drop k ++ 0 :: post)) := by
            rw [List.append_assoc, ← List.append_assoc (s.take k), List.take_append_drop]
            rfl
          have htake : (s.take k).length = k := by rw [List.length_take, Nat.min_eq_left hk]
          have hcont := continued_eq (pre ++ [c]) (t := s.take k) (s.drop k ++ 0 :: post)
          rw [htake, ← hpre, List.length_append, List.length_singleton] at hcont
          rw [if_neg (by omega), hcont, Option.bind_eq_bind, Option.bind_some]
          by_cases hall : ∀ b ∈ s.take k, Continues b
          · have hdrop : (s.drop k).length = s.length - k := List.length_drop
            obtain ⟨v, hv, hiff⟩ := ih (s := s.drop k) (by omega) (pre ++ [c] ++ s.take k)
            refine ⟨v, ?_, ?_⟩
            · rw [List.all_eq_true.2 fun b hb => decide_eq_true (hall b hb), if_pos rfl, hpre, ← List.append_assoc (pre ++ [c])]
              rw [List.length_append, List.length_append, htake, hdrop, List.length_singleton] at hv
              rw [show pre.length + (s.length + 1) = pre.length + 1 + k + (s.length - k) by omega,
                show pre.length + k + 1 = pre.length + 1 + k by omega]
              exact hv
            · rw [hiff]
              exact ⟨fun h => ⟨k, rfl, hk, hall, h⟩, fun ⟨k', hk', _, _, h⟩ => Option.some.inj hk' ▸ h⟩
          · have hnot : (s.take k).all (fun b => Continues b) = false := by
              rw [Bool.eq_false_iff, Ne, List.all_eq_true]
              exact fun h => hall fun b hb => of_decide_eq_true (h b hb)
            refine ⟨false, by rw [hnot]; rfl, iff_of_false Bool.false_ne_true ?_⟩
            rintro ⟨k', hk', -, hcont', -⟩
            obtain rfl := Option.some.inj hk'
            exact hall hcont'
        · refine ⟨false, by dsimp only; rw [if_pos (by omega)]; rfl, iff_of_false Bool.false_ne_true ?_⟩
          rintro ⟨k', hk', hle, -⟩
          obtain rfl := Option.some.inj hk'
          exact hk hle

theorem utf8Valid_eq (post : Object) {s : List UInt8} (hs : 0 ∉ s) :
    ∃ v, utf8Valid (s ++ 0 :: post) = some v ∧ (v = true ↔ Shapes s) := by
  obtain ⟨v, hv, hiff⟩ := validLoop_eq post (Nat.le_refl s.length) []
  rw [List.nil_append, List.length_nil, Nat.zero_add] at hv
  refine ⟨v, ?_, hiff⟩
  rw [utf8Valid, strlen_append hs, Option.bind_eq_bind, Option.bind_some, hv]

/-! ## What is made of the rest -/

def latin1Byte (c : UInt8) : List UInt8 := if c < 0x80 then [c] else [(0xc0 : UInt8) ||| (c >>> 6), (0x80 : UInt8) ||| (c &&& 0x3f)]

def latin1 (s : List UInt8) : List UInt8 := s.flatMap latin1Byte

set_option maxRecDepth 8192 in
/-- Latin-1 is the first characters of Unicode. -/
theorem latin1Byte_eq : ∀ c : UInt8, latin1Byte c = String.utf8EncodeChar (Char.ofNat c.toNat) := forall_byte (by decide)

theorem latin1_eq (s : List UInt8) : latin1 s = Str.bytes (s.map fun c => Char.ofNat c.toNat) := by
  rw [latin1, Str.bytes, List.flatMap_map]
  exact congrArg (List.flatMap · s) (funext latin1Byte_eq)

set_option maxRecDepth 8192 in
theorem zero_not_mem_latin1Byte : ∀ c : UInt8, c ≠ 0 → 0 ∉ latin1Byte c := forall_byte (by decide)

theorem zero_not_mem_latin1 {s : List UInt8} (hs : 0 ∉ s) : 0 ∉ latin1 s := by
  intro h
  obtain ⟨c, hc, hzero⟩ := List.mem_flatMap.1 h
  refine zero_not_mem_latin1Byte c ?_ hzero
  rintro rfl
  exact hs hc

theorem length_latin1_le (s : List UInt8) : (latin1 s).length ≤ 2 * s.length := by
  induction s with
  | nil => exact Nat.le_refl _
  | cons c s ih =>
    have hbyte : (latin1Byte c).length ≤ 2 := by
      unfold latin1Byte
      split <;> simp
    rw [latin1, List.flatMap_cons, List.length_append, List.length_cons]
    have ih' : (s.flatMap latin1Byte).length ≤ 2 * s.length := ih
    omega

/-- One pass writes what one byte is. -/
theorem latin1Loop_byte (fuel : Nat) (pre : Object) (c : UInt8) (t out : Object) {fresh : Object} {n : Nat} (hlt : pre.length < n)
    (hroom : (latin1Byte c).length ≤ fresh.length) :
    latin1Loop (fuel + 1) (pre ++ c :: t) (out ++ fresh) n out.length pre.length =
      latin1Loop fuel (pre ++ [c] ++ t) (out ++ latin1Byte c ++ fresh.drop (latin1Byte c).length) n (out ++ latin1Byte c).length
        (pre ++ [c]).length := by
  have hpre : (pre ++ [c]).length = pre.length + 1 := List.length_append
  rw [latin1Loop, if_pos hlt, load_append, Option.bind_eq_bind, Option.bind_some, List.append_assoc pre, hpre]
  unfold latin1Byte at hroom ⊢
  split
  · next hc =>
    rw [if_pos hc] at hroom
    rw [store_fresh hroom, Option.bind_eq_bind, Option.bind_some, List.length_append]
    rfl
  · next hc =>
    rw [if_neg hc] at hroom
    have htwo : 2 ≤ fresh.length := hroom
    have hroom' : 0 < (fresh.drop 1).length := by
      rw [List.length_drop]
      omega
    have hsnd := @store_fresh (out ++ [(0xc0 : UInt8) ||| (c >>> 6)]) _ hroom' ((0x80 : UInt8) ||| (c &&& 0x3f))
    rw [List.length_append, List.length_singleton, List.drop_drop, List.append_assoc out [_] [_]] at hsnd
    rw [store_fresh (by omega), Option.bind_eq_bind, Option.bind_some, hsnd, Option.bind_some, List.length_append]
    rfl

theorem latin1Loop_eq (post : Object) {s : List UInt8} {fuel : Nat} (hfuel : s.length ≤ fuel) (pre out : Object) {fresh : Object}
    (hroom : (latin1 s).length ≤ fresh.length) :
    latin1Loop (fuel + 1) (pre ++ (s ++ 0 :: post)) (out ++ fresh) (pre.length + s.length) out.length pre.length =
      some (out ++ latin1 s ++ fresh.drop (latin1 s).length, (out ++ latin1 s).length) := by
  induction s generalizing fuel pre out fresh with
  | nil =>
    rw [latin1Loop, if_neg (by simp), show latin1 [] = [] from rfl, List.append_nil]
    rfl
  | cons c s ih =>
    have hlt : pre.length < pre.length + (c :: s).length := by simp
    have hn : pre.length + (c :: s).length = (pre ++ [c]).length + s.length := by simp; omega
    have hconv : latin1 (c :: s) = latin1Byte c ++ latin1 s := rfl
    have hlen : (latin1Byte c ++ latin1 s).length = (latin1Byte c).length + (latin1 s).length := List.length_append
    rw [List.length_cons] at hfuel
    obtain ⟨fuel, rfl⟩ := Nat.exists_eq_add_of_le' (show 1 ≤ fuel by omega)
    rw [hconv, hlen] at hroom
    rw [List.cons_append, latin1Loop_byte _ pre c _ out hlt (by omega), hn,
      ih (by omega) (pre ++ [c]) (out ++ latin1Byte c) (by rw [List.length_drop]; omega), hconv, List.drop_drop, List.append_assoc out,
      hlen]

theorem memcpy_eq {s : List UInt8} (post : Object) {fresh : Object} (h : fresh.length = s.length + 1) :
    memcpy fresh (s ++ 0 :: post) (s.length + 1) = some (s ++ [0]) := by
  have htake : (s ++ 0 :: post).take (s.length + 1) = s ++ [0] := by
    rw [List.take_append, List.take_of_length_le (Nat.le_succ _), Nat.add_sub_cancel_left]
    rfl
  rw [memcpy, if_pos ⟨Nat.le_of_eq h.symm, by simp⟩, htake, List.drop_of_length_le (Nat.le_of_eq h), List.append_nil]

/-- The copy: as it is, where it is shaped like UTF-8, and else as Latin-1. -/
theorem utf8FromBytes_eq (m : Malloc) {s : List UInt8} (hs : 0 ∉ s) (post : Object) (hsize : (s ++ 0 :: post).length < 2 ^ 63) :
    (Shapes s → utf8FromBytes m (some (s ++ 0 :: post)) = some ((m.alloc (s.length + 1)).map fun _ => s ++ [0])) ∧
    (¬Shapes s → utf8FromBytes m (some (s ++ 0 :: post)) =
      some ((m.alloc (2 * s.length + 1)).map fun fresh => latin1 s ++ 0 :: fresh.drop ((latin1 s).length + 1))) := by
  obtain ⟨v, hv, hiff⟩ := utf8Valid_eq post hs
  have hlt : s.length + 1 ≤ (s ++ 0 :: post).length := by simp
  constructor
  · intro hshapes
    obtain rfl := hiff.2 hshapes
    rw [utf8FromBytes, Option.getD_some]
    simp only [strlen_append hs, hv, Option.bind_eq_bind, Option.bind_some, if_true]
    rw [Nat.mod_eq_of_lt (by omega)]
    cases halloc : m.alloc (s.length + 1) with
    | none => rfl
    | some fresh =>
      simp only [memcpy_eq post (m.length_eq _ _ halloc), Option.bind_some, Option.map_some]
      rfl
  · intro hshapes
    obtain rfl : v = false := Bool.eq_false_iff.2 fun h => hshapes (hiff.1 h)
    rw [utf8FromBytes, Option.getD_some]
    simp only [strlen_append hs, hv, Option.bind_eq_bind, Option.bind_some, Bool.false_eq_true, if_false]
    rw [Nat.mod_eq_of_lt (by omega)]
    cases halloc : m.alloc (2 * s.length + 1) with
    | none => rfl
    | some fresh =>
      have hlen := m.length_eq _ _ halloc
      have hle := length_latin1_le s
      have hloop := latin1Loop_eq post (Nat.le_refl s.length) [] [] (show (latin1 s).length ≤ fresh.length by omega)
      simp only [List.nil_append, List.length_nil, Nat.zero_add] at hloop
      have hroom : 0 < (fresh.drop (latin1 s).length).length := by
        rw [List.length_drop]
        omega
      simp only [hloop, Option.bind_some, store_fresh hroom, Option.map_some, List.drop_drop, List.append_assoc, List.singleton_append]
      rfl

/-! ## Where that is UTF-8 -/

/-- Where the bytes are shaped sequences, each is a character's: none is overlong, a surrogate or too large. -/
def Scalars (s : List UInt8) : Prop := ∀ qs : List (List UInt8), s = qs.flatten → (∀ q ∈ qs, Shaped q) → ∀ q ∈ qs, IsScalar q

theorem ofBytes?_isSome_iff {s : List UInt8} (hs : Scalars s) : (Str.ofBytes? s).isSome = true ↔ Shapes s := by
  rw [ofBytes?_isSome]
  constructor
  · rintro ⟨qs, hqs, hall⟩
    exact ⟨qs, hqs, fun q hq => (hall q hq).1⟩
  · rintro ⟨qs, hqs, hall⟩
    exact ⟨qs, hqs, fun q hq => ⟨hall q hq, hs qs hqs hall q hq⟩⟩

theorem scalars_of_isSome {s : List UInt8} (h : (Str.ofBytes? s).isSome = true) : Scalars s := by
  obtain ⟨qs, hqs, hall⟩ := ofBytes?_isSome.1 h
  rintro qs' hqs' hshaped q hq
  obtain rfl := flatten_inj (fun q hq => (hall q hq).1) hshaped (hqs.symm.trans hqs')
  exact (hall q hq).2

theorem latin1_isSome (s : List UInt8) : (Str.ofBytes? (latin1 s)).isSome = true := by
  rw [latin1_eq, Str.ofBytes?_bytes]
  rfl

/-- Neither function reads past a terminator (`post` may be empty), and the copy is a string in the object it was allocated,
the same where it was UTF-8. What is accepted is UTF-8, and so is what is copied, just when no sequence is overlong, a
surrogate or too large. -/
theorem utf8_accepted_iff (m : Malloc) (s : List UInt8) (hs : 0 ∉ s) (post : Object) (hsize : (s ++ 0 :: post).length < 2 ^ 63) :
    (utf8Valid (s ++ 0 :: post)).isSome ∧
    (∃ size out, utf8FromBytes m (some (s ++ 0 :: post)) = some out ∧ (out = none ↔ m.alloc size = none) ∧
      ∀ copy, out = some copy → copy.length = size ∧ 0 ∈ copy ∧ ((Str.ofBytes? s).isSome → cstr copy = s)) ∧
    ((utf8Valid (s ++ 0 :: post) = some (Str.ofBytes? s).isSome ∧
      ∀ copy, utf8FromBytes m (some (s ++ 0 :: post)) = some (some copy) → (Str.ofBytes? (cstr copy)).isSome) ↔ Scalars s) := by
  obtain ⟨v, hv, hiff⟩ := utf8Valid_eq post hs
  obtain ⟨hshaped, hother⟩ := utf8FromBytes_eq m hs post hsize
  refine ⟨hv ▸ rfl, ?_, ?_⟩
  · by_cases hshapes : Shapes s
    · refine ⟨_, _, hshaped hshapes, Option.map_eq_none_iff, fun copy hcopy => ?_⟩
      obtain ⟨fresh, -, rfl⟩ := Option.map_eq_some_iff.1 hcopy
      exact ⟨List.length_append, by simp, fun _ => cstr_append hs []⟩
    · refine ⟨_, _, hother hshapes, Option.map_eq_none_iff, fun copy hcopy => ?_⟩
      obtain ⟨fresh, hfresh, rfl⟩ := Option.map_eq_some_iff.1 hcopy
      have hlen := m.length_eq _ _ hfresh
      have hle := length_latin1_le s
      refine ⟨?_, by simp, fun h => absurd ((ofBytes?_isSome_iff (scalars_of_isSome h)).1 h) hshapes⟩
      rw [List.length_append, List.length_cons, List.length_drop]
      omega
  · constructor
    · rintro ⟨hvalid, -⟩ qs hqs hall
      have htrue : v = true := hiff.2 ⟨qs, hqs, hall⟩
      rw [hv, htrue] at hvalid
      exact scalars_of_isSome (Option.some.inj hvalid).symm qs hqs hall
    · intro hscalars
      have hsome := ofBytes?_isSome_iff hscalars
      refine ⟨?_, fun copy hcopy => ?_⟩
      · rw [hv, Bool.eq_iff_iff.2 (hiff.trans hsome.symm)]
      · by_cases hshapes : Shapes s
        · rw [hshaped hshapes] at hcopy
          obtain ⟨fresh, -, rfl⟩ := Option.map_eq_some_iff.1 (Option.some.inj hcopy)
          rw [cstr_append hs]
          exact hsome.2 hshapes
        · rw [hother hshapes] at hcopy
          obtain ⟨fresh, -, rfl⟩ := Option.map_eq_some_iff.1 (Option.some.inj hcopy)
          rw [cstr_append (zero_not_mem_latin1 hs)]
          exact latin1_isSome s

/-- A letter of two bytes. -/
theorem utf8_accepted_iff_letter :
    utf8Valid (Str.bytes ['é'] ++ 0 :: []) = some (Str.ofBytes? (Str.bytes ['é'])).isSome ∧
      ∀ copy, utf8FromBytes ⟨fun n => some (List.replicate n 7), fun _ _ h => Option.some.inj h ▸ List.length_replicate⟩
        (some (Str.bytes ['é'] ++ 0 :: [])) = some (some copy) → (Str.ofBytes? (cstr copy)).isSome :=
  (utf8_accepted_iff _ (Str.bytes ['é']) (by decide) [] (by decide)).2.2.2
    (scalars_of_isSome (by rw [Str.ofBytes?_bytes]; rfl))

/-- A slash in two bytes is accepted, though it is overlong. -/
theorem overlong_accepted : ¬utf8Valid ([0xc0, 0xaf] ++ 0 :: []) = some (Str.ofBytes? [0xc0, 0xaf]).isSome := by
  have haccepted : utf8Valid ([0xc0, 0xaf] ++ 0 :: []) = some true := by decide
  rw [haccepted]
  intro h
  have hscalars := scalars_of_isSome (Option.some.inj h).symm
  have hshaped : Shaped [0xc0, 0xaf] := ⟨by decide, by simpa using (by decide : Continues 0xaf)⟩
  have hvalue : ¬least 2 ≤ value [0xc0, 0xaf] := by decide
  exact hvalue (hscalars [[0xc0, 0xaf]] rfl (by simpa using hshaped) _ List.mem_cons_self).1

end Vento.Api.Text
