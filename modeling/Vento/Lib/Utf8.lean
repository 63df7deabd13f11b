import Vento.Lib.Str
/-!
# Sequences of UTF-8

A `Shaped` sequence is a lead byte and as many continuation bytes as it calls for. It has a `value`, and is the encoding
of a character just when that is one that no shorter sequence has, is no surrogate and is not past the last character:
`isScalar_iff`. Bytes are cut into shaped sequences in at most one way (`flatten_inj`).
-/

namespace Vento.Lib.Utf8

/-- How many continuation bytes a lead byte calls for. -/
def extra (c : UInt8) : Option Nat :=
  if c < 0x80 then some 0
  else if c &&& 0xe0 = 0xc0 then some 1
  else if c &&& 0xf0 = 0xe0 then some 2
  else if c &&& 0xf8 = 0xf0 then some 3
  else none

def Continues (b : UInt8) : Prop := b &&& 0xc0 = 0x80

instance (b : UInt8) : Decidable (Continues b) := inferInstanceAs (Decidable (_ = _))

def Shaped : List UInt8 → Prop
  | [] => False
  | c :: t => extra c = some t.length ∧ ∀ b ∈ t, Continues b

/-- The number that the bits of a sequence are. -/
def value : List UInt8 → Nat
  | [c] => c.toNat
  | [c, d] => c.toNat % 32 * 64 + d.toNat % 64
  | [c, d, e] => c.toNat % 16 * 4096 + d.toNat % 64 * 64 + e.toNat % 64
  | [c, d, e, f] => c.toNat % 8 * 262144 + d.toNat % 64 * 4096 + e.toNat % 64 * 64 + f.toNat % 64
  | _ => 0

/-- The least number that takes so many bytes. -/
def least : Nat → Nat
  | 0 | 1 => 0
  | 2 => 0x80
  | 3 => 0x800
  | _ => 0x10000

/-- It is not overlong, no surrogate, and not too large. -/
def IsScalar (q : List UInt8) : Prop :=
  least q.length ≤ value q ∧ ¬(0xd800 ≤ value q ∧ value q < 0xe000) ∧ value q < 0x110000

instance (q : List UInt8) : Decidable (IsScalar q) := inferInstanceAs (Decidable (_ ∧ _ ∧ _))

/-! ## Lead bytes -/

theorem forall_byte {p : UInt8 → Prop} (h : ∀ n, n < 256 → p (UInt8.ofNat n)) (b : UInt8) : p b := by
  have hb := h b.toNat b.toNat_lt
  rwa [UInt8.ofNat_toNat] at hb

set_option maxRecDepth 4096 in
theorem continues_iff : ∀ b : UInt8, Continues b ↔ 128 ≤ b.toNat ∧ b.toNat < 192 := forall_byte (by decide +kernel)

set_option maxRecDepth 4096 in
theorem extra_eq : ∀ c : UInt8, extra c =
    if c.toNat < 128 then some 0 else if c.toNat < 192 then none else if c.toNat < 224 then some 1
    else if c.toNat < 240 then some 2 else if c.toNat < 248 then some 3 else none := forall_byte (by decide +kernel)

theorem extra_le {c : UInt8} {k : Nat} (h : extra c = some k) : k ≤ 3 := by
  unfold extra at h
  grind

/-! ## One sequence -/

theorem toNat_ofNat_lt {n : Nat} (h : n < 256) : (UInt8.ofNat n).toNat = n := by
  rw [UInt8.toNat_ofNat', Nat.mod_eq_of_lt h]

theorem ofNat_eq {n : Nat} {b : UInt8} (h : n = b.toNat) : UInt8.ofNat n = b := by
  rw [h, UInt8.ofNat_toNat]

theorem encode_eq (c : Char) :
    String.utf8EncodeChar c =
      if c.toNat ≤ 0x7f then [UInt8.ofNat c.toNat]
      else if c.toNat ≤ 0x7ff then [UInt8.ofNat (c.toNat / 64 % 32 + 192), UInt8.ofNat (c.toNat % 64 + 128)]
      else if c.toNat ≤ 0xffff then
        [UInt8.ofNat (c.toNat / 4096 % 16 + 224), UInt8.ofNat (c.toNat / 64 % 64 + 128), UInt8.ofNat (c.toNat % 64 + 128)]
      else
        [UInt8.ofNat (c.toNat / 262144 % 8 + 240), UInt8.ofNat (c.toNat / 4096 % 64 + 128), UInt8.ofNat (c.toNat / 64 % 64 + 128),
          UInt8.ofNat (c.toNat % 64 + 128)] := rfl

/-- The four shapes. -/
theorem shaped_iff {q : List UInt8} :
    Shaped q ↔
      (∃ c, q = [c] ∧ c.toNat < 128) ∨
      (∃ c d, q = [c, d] ∧ (192 ≤ c.toNat ∧ c.toNat < 224) ∧ Continues d) ∨
      (∃ c d e, q = [c, d, e] ∧ (224 ≤ c.toNat ∧ c.toNat < 240) ∧ Continues d ∧ Continues e) ∨
      ∃ c d e f, q = [c, d, e, f] ∧ (240 ≤ c.toNat ∧ c.toNat < 248) ∧ Continues d ∧ Continues e ∧ Continues f := by
  match q with
  | [] => simp [Shaped]
  | [c] => simp [Shaped, extra_eq]; grind
  | [c, d] => simp [Shaped, extra_eq]; grind
  | [c, d, e] => simp [Shaped, extra_eq]; grind
  | [c, d, e, f] => simp [Shaped, extra_eq]; grind
  | c :: d :: e :: f :: g :: t =>
    refine iff_of_false (fun h => ?_) (by simp)
    have hle := extra_le h.1
    simp only [List.length_cons] at hle
    omega

theorem continues_ofNat {n : Nat} (h0 : 128 ≤ n) (h1 : n < 192) : Continues (UInt8.ofNat n) := by
  rw [continues_iff, toNat_ofNat_lt (by omega)]
  exact ⟨h0, h1⟩

theorem shaped_encode (c : Char) : Shaped (String.utf8EncodeChar c) := by
  rw [encode_eq, shaped_iff]
  split
  · next h => exact .inl ⟨_, rfl, by rw [toNat_ofNat_lt (by omega)]; omega⟩
  · split
    · refine .inr (.inl ⟨_, _, rfl, ?_, continues_ofNat (by omega) (by omega)⟩)
      rw [toNat_ofNat_lt (by omega)]
      omega
    · split
      · refine .inr (.inr (.inl ⟨_, _, _, rfl, ?_, continues_ofNat (by omega) (by omega), continues_ofNat (by omega) (by omega)⟩))
        rw [toNat_ofNat_lt (by omega)]
        omega
      · refine .inr (.inr (.inr ⟨_, _, _, _, rfl, ?_, continues_ofNat (by omega) (by omega), continues_ofNat (by omega) (by omega),
          continues_ofNat (by omega) (by omega)⟩))
        rw [toNat_ofNat_lt (by omega)]
        omega

theorem toNat_lt (c : Char) : c.toNat < 0x110000 ∧ ¬(0xd800 ≤ c.toNat ∧ c.toNat < 0xe000) := by
  have hvalid : c.toNat < 0xd800 ∨ 0xdfff < c.toNat ∧ c.toNat < 0x110000 := c.valid
  omega

theorem value_encode (c : Char) : value (String.utf8EncodeChar c) = c.toNat ∧ least (String.utf8EncodeChar c).length ≤ c.toNat := by
  have hc := toNat_lt c
  rw [encode_eq]
  split
  · refine ⟨?_, Nat.zero_le _⟩
    rw [value, toNat_ofNat_lt (by omega)]
  · split
    · refine ⟨?_, show 0x80 ≤ c.toNat by omega⟩
      rw [value, toNat_ofNat_lt (by omega), toNat_ofNat_lt (by omega)]
      omega
    · split
      · refine ⟨?_, show 0x800 ≤ c.toNat by omega⟩
        rw [value, toNat_ofNat_lt (by omega), toNat_ofNat_lt (by omega), toNat_ofNat_lt (by omega)]
        omega
      · refine ⟨?_, show 0x10000 ≤ c.toNat by omega⟩
        rw [value, toNat_ofNat_lt (by omega), toNat_ofNat_lt (by omega), toNat_ofNat_lt (by omega), toNat_ofNat_lt (by omega)]
        omega

/-- The encoding of the number that its bits are is the sequence again, where no fewer bytes hold it. -/
theorem encode_value {q : List UInt8} (h : Shaped q) (hleast : least q.length ≤ value q) {c : Char} (hc : c.toNat = value q) :
    String.utf8EncodeChar c = q := by
  rw [shaped_iff] at h
  rw [encode_eq]
  simp only [continues_iff] at h
  rcases h with ⟨c, rfl, h⟩ | ⟨c, d, rfl, h⟩ | ⟨c, d, e, rfl, h⟩ | ⟨c, d, e, f, rfl, h⟩
  · rw [value] at hc
    rw [if_pos (by omega), ofNat_eq hc]
  · rw [value] at hc hleast
    simp only [List.length_cons, List.length_nil, least] at hleast
    rw [if_neg (by omega), if_pos (by omega), ofNat_eq (b := c) (by omega), ofNat_eq (b := d) (by omega)]
  · rw [value] at hc hleast
    simp only [List.length_cons, List.length_nil, least] at hleast
    rw [if_neg (by omega), if_neg (by omega), if_pos (by omega), ofNat_eq (b := c) (by omega), ofNat_eq (b := d) (by omega),
      ofNat_eq (b := e) (by omega)]
  · rw [value] at hc hleast
    simp only [List.length_cons, List.length_nil, least] at hleast
    rw [if_neg (by omega), if_neg (by omega), if_neg (by omega), ofNat_eq (b := c) (by omega), ofNat_eq (b := d) (by omega),
      ofNat_eq (b := e) (by omega), ofNat_eq (b := f) (by omega)]

theorem isScalar_iff {q : List UInt8} (h : Shaped q) : IsScalar q ↔ ∃ c : Char, q = String.utf8EncodeChar c := by
  constructor
  · rintro ⟨hleast, hsurrogate, hlarge⟩
    have hvalid : (value q).isValidChar := by
      unfold Nat.isValidChar
      omega
    have hc : (Char.ofNat (value q)).toNat = value q := by
      rw [Char.ofNat, dif_pos hvalid]
      rfl
    exact ⟨Char.ofNat (value q), (encode_value h hleast hc).symm⟩
  · rintro ⟨c, rfl⟩
    obtain ⟨hvalue, hleast⟩ := value_encode c
    have hc := toNat_lt c
    unfold IsScalar
    rw [hvalue]
    exact ⟨hleast, hc.2, hc.1⟩

/-! ## A text of them -/

/-- A lead byte says where its sequence ends. -/
theorem Shaped.append_inj {q q' s s' : List UInt8} (hq : Shaped q) (hq' : Shaped q') (h : q ++ s = q' ++ s') : q = q' ∧ s = s' := by
  match q, q', hq, hq' with
  | c :: t, c' :: t', hq, hq' =>
    obtain rfl : c = c' := (List.cons.inj h).1
    have hlen : t.length = t'.length := Option.some.inj (hq.1.symm.trans hq'.1)
    exact List.append_inj h (by rw [List.length_cons, List.length_cons, hlen])

theorem flatten_inj {qs qs' : List (List UInt8)} (hqs : ∀ q ∈ qs, Shaped q) (hqs' : ∀ q ∈ qs', Shaped q) (h : qs.flatten = qs'.flatten) :
    qs = qs' := by
  have hne : ∀ {q : List UInt8}, Shaped q → ∀ l, q ++ l ≠ [] := by
    rintro q hq l hnil
    rw [(List.append_eq_nil_iff.1 hnil).1] at hq
    exact hq
  induction qs generalizing qs' with
  | nil =>
    cases qs' with
    | nil => rfl
    | cons q' qs' => exact absurd h.symm (hne (hqs' q' List.mem_cons_self) _)
  | cons q qs ih =>
    cases qs' with
    | nil => exact absurd h (hne (hqs q List.mem_cons_self) _)
    | cons q' qs' =>
      rw [List.flatten_cons, List.flatten_cons] at h
      obtain ⟨rfl, hrest⟩ := (hqs q List.mem_cons_self).append_inj (hqs' q' List.mem_cons_self) h
      rw [ih (fun p hp => hqs p (.tail _ hp)) (fun p hp => hqs' p (.tail _ hp)) hrest]

/-- The bytes are shaped sequences, one after another. -/
def Shapes (s : List UInt8) : Prop := ∃ qs : List (List UInt8), s = qs.flatten ∧ ∀ q ∈ qs, Shaped q

theorem shapes_nil : Shapes [] := ⟨[], rfl, fun _ hq => nomatch hq⟩

theorem shapes_cons {c : UInt8} {s : List UInt8} :
    Shapes (c :: s) ↔ ∃ k, extra c = some k ∧ k ≤ s.length ∧ (∀ b ∈ s.take k, Continues b) ∧ Shapes (s.drop k) := by
  constructor
  · rintro ⟨qs, hs, hqs⟩
    match qs, hs, hqs with
    | [] :: qs, _, hqs => exact absurd (hqs [] List.mem_cons_self) id
    | (d :: t) :: qs, hs, hqs =>
      obtain ⟨hextra, ht⟩ := hqs (d :: t) List.mem_cons_self
      obtain ⟨rfl, hst⟩ : c = d ∧ s = t ++ qs.flatten := List.cons.inj hs
      subst hst
      refine ⟨t.length, hextra, ?_, ?_, qs, ?_, fun q hq => hqs q (.tail _ hq)⟩
      · rw [List.length_append]
        exact Nat.le_add_right _ _
      · rw [List.take_left]
        exact ht
      · rw [List.drop_left]
  · rintro ⟨k, hextra, hk, hcont, qs, hqs, hall⟩
    refine ⟨(c :: s.take k) :: qs, ?_, ?_⟩
    · rw [List.flatten_cons, ← hqs, List.cons_append, List.take_append_drop]
    · rintro q (_ | ⟨_, hq⟩)
      · exact ⟨by rw [List.length_take, Nat.min_eq_left hk]; exact hextra, hcont⟩
      · exact hall q hq

/-- A string's bytes are just those that are shaped sequences, each of them a character's. -/
theorem ofBytes?_isSome {s : List UInt8} :
    (Str.ofBytes? s).isSome ↔ ∃ qs : List (List UInt8), s = qs.flatten ∧ ∀ q ∈ qs, Shaped q ∧ IsScalar q := by
  rw [Option.isSome_iff_exists]
  constructor
  · rintro ⟨t, ht⟩
    obtain rfl := Str.ofBytes?_eq_some.1 ht
    refine ⟨t.map String.utf8EncodeChar, List.flatMap_def, fun q hq => ?_⟩
    obtain ⟨c, -, rfl⟩ := List.mem_map.1 hq
    exact ⟨shaped_encode c, (isScalar_iff (shaped_encode c)).2 ⟨c, rfl⟩⟩
  · rintro ⟨qs, rfl, hqs⟩
    induction qs with
    | nil => exact ⟨[], Str.ofBytes?_eq_some.2 rfl⟩
    | cons q qs ih =>
      obtain ⟨t, ht⟩ := ih fun p hp => hqs p (.tail _ hp)
      obtain ⟨hshaped, hscalar⟩ := hqs q List.mem_cons_self
      obtain ⟨c, rfl⟩ := (isScalar_iff hshaped).1 hscalar
      refine ⟨c :: t, Str.ofBytes?_eq_some.2 ?_⟩
      rw [List.flatten_cons, Str.ofBytes?_eq_some.1 ht, Str.bytes_cons]

end Vento.Lib.Utf8
