import Mathlib.Algebra.Order.Group.Unbundled.Int
import Mathlib.Algebra.Ring.Int.Defs
import Mathlib.Algebra.Ring.Nat
import Mathlib.Data.Fintype.Basic
import Mathlib.Tactic.FinCases
import Vento.Video.Convert
/-!
# Sixteen pixels at a time

`media/video/convert.rs`: the vectorised row, with NEON and with SSE2, each intrinsic at its
documented integer meaning. A lane wraps where its instruction does and saturates where its
instruction does; a load is of bytes of the slice it is made through and is `none` past its
end.

`rowVectorised_then_scalar`: wherever the scalar loop converts a row, the vectorised one and
the scalar loop from where it stopped write the same words.
-/

namespace Vento.Video

/-- What a 16-bit lane keeps of an integer. -/
def s16 (x : Int) : Int := (x + 0x8000) % 0x10000 - 0x8000

/-- What a 32-bit lane keeps of an integer. -/
def s32 (x : Int) : Int := (x + 0x80000000) % 0x100000000 - 0x80000000

/-- `n` bytes from `at_` on. -/
def Slice.load (m : Memory) (s : Slice) (at_ n : Nat) : Option (Fin n → UInt8) :=
  if at_ + n ≤ s.len then some fun i => m (s.ptr + (at_ + i)) else none

/-- Four bytes in memory as a little-endian word. -/
def wordOf (r g b a : Nat) : Nat := r + 0x100 * g + 0x10000 * b + 0x1000000 * a

theorem s16_eq {x : Int} (h : -0x8000 ≤ x) (h' : x < 0x8000) : s16 x = x := by
  unfold s16
  omega

theorem s32_eq {x : Int} (h : -0x80000000 ≤ x) (h' : x < 0x80000000) : s32 x = x := by
  unfold s32
  omega

theorem clamp_lt (x : Int) : clamp x < 0x100 := by
  unfold clamp
  omega

/-- A word's four bytes, which do not meet. -/
theorem word_eq_wordOf (yy rv gu bu : Int) :
    word yy rv gu bu =
      wordOf (clamp ((yy + rv) >>> (8 : Nat))) (clamp ((yy + gu) >>> (8 : Nat))) (clamp ((yy + bu) >>> (8 : Nat))) 0xff := by
  have hr := clamp_lt ((yy + rv) >>> (8 : Nat))
  have hg := clamp_lt ((yy + gu) >>> (8 : Nat))
  have hb := clamp_lt ((yy + bu) >>> (8 : Nat))
  unfold word wordOf
  generalize clamp ((yy + rv) >>> (8 : Nat)) = r at *
  generalize clamp ((yy + gu) >>> (8 : Nat)) = g at *
  generalize clamp ((yy + bu) >>> (8 : Nat)) = b at *
  have hrg : r ||| g <<< 8 = r + 0x100 * g := by
    rw [Nat.or_comm, ← Nat.shiftLeft_add_eq_or_of_lt (i := 8) hr, Nat.shiftLeft_eq]
    omega
  have hrgb : r + 0x100 * g ||| b <<< 16 = r + 0x100 * g + 0x10000 * b := by
    rw [Nat.or_comm, ← Nat.shiftLeft_add_eq_or_of_lt (i := 16) (by omega), Nat.shiftLeft_eq]
    omega
  have ha : (0xff000000 : Nat) = 0xff <<< 24 := rfl
  rw [hrg, hrgb, ha, Nat.or_comm, ← Nat.shiftLeft_add_eq_or_of_lt (i := 24) (by omega), Nat.shiftLeft_eq]
  omega

/-- The terms of a pixel: what the scalar loop adds up, in numbers of any size. -/
structure Terms where
  y : Int
  rv : Int
  gu : Int
  bu : Int

def terms (c : Coefficients) (y u v : UInt8) : Terms :=
  ⟨(y.toNat + c.yOffset) * c.y, c.rv * (v.toNat - 128) + 128, c.gu * (u.toNat - 128) + c.gv * (v.toNat - 128) + 128,
    c.bu * (u.toNat - 128) + 128⟩

/-- What a 32-bit lane holds without wrapping, and a 16-bit one once it is shifted. -/
def Held (x : Int) : Prop := -0x100000 ≤ x ∧ x < 0x100000

/-- No term passes the lanes the vectorised rows keep it in. -/
theorem terms_held (bt709 fullRange : Bool) (y u v : UInt8) :
    let t := terms (coefficients bt709 fullRange) y u v
    Held t.y ∧ Held t.rv ∧ Held t.gu ∧ Held t.bu := by
  have hy := y.toNat_lt
  have hu := u.toNat_lt
  have hv := v.toNat_lt
  cases bt709 <;> cases fullRange <;> simp only [terms, coefficients, Held] <;> omega

theorem pixel_eq_wordOf (c : Coefficients) (y u v : UInt8) :
    pixel c y u v = wordOf (clamp (((terms c y u v).y + (terms c y u v).rv) >>> (8 : Nat)))
      (clamp (((terms c y u v).y + (terms c y u v).gu) >>> (8 : Nat)))
      (clamp (((terms c y u v).y + (terms c y u v).bu) >>> (8 : Nat))) 0xff :=
  word_eq_wordOf _ _ _ _

/-- The coefficients and the samples are small enough for the 16-bit lanes. -/
theorem small (bt709 fullRange : Bool) {c : Coefficients} (hc : c = coefficients bt709 fullRange) :
    s16 c.y = c.y ∧ s16 c.rv = c.rv ∧ s16 c.gu = c.gu ∧ s16 c.gv = c.gv ∧ s16 c.bu = c.bu ∧ s16 c.yOffset = c.yOffset ∧
      -16 ≤ c.yOffset ∧ c.yOffset ≤ 0 := by
  subst hc
  cases bt709 <;> cases fullRange <;> decide

/-! ## NEON -/

namespace Neon

/-- The lanes of a register, each as the integer its type reads it as. -/
abbrev Lanes (n : Nat) := Fin n → Int

def vdup {n : Nat} (x : Int) : Lanes n := fun _ => x

def vmovlU8 (a : Fin 8 → UInt8) : Lanes 8 := fun i => (a i).toNat

def vreinterpretqS16U16 (a : Lanes 8) : Lanes 8 := fun i => s16 (a i)

def vaddqS16 (a b : Lanes 8) : Lanes 8 := fun i => s16 (a i + b i)

def vsubqS16 (a b : Lanes 8) : Lanes 8 := fun i => s16 (a i - b i)

def vaddqS32 (a b : Lanes 4) : Lanes 4 := fun i => s32 (a i + b i)

/-- Two 16-bit lanes' product, which 32 bits hold. -/
def vmullS16 (a b : Lanes 4) : Lanes 4 := fun i => a i * b i

def vgetLowS16 (a : Lanes 8) : Lanes 4 := fun i => a ⟨i, by omega⟩

def vgetHighS16 (a : Lanes 8) : Lanes 4 := fun i => a ⟨4 + i, by omega⟩

def vgetLowU8 (a : Fin 16 → UInt8) : Fin 8 → UInt8 := fun i => a ⟨i, by omega⟩

def vgetHighU8 (a : Fin 16 → UInt8) : Fin 8 → UInt8 := fun i => a ⟨8 + i, by omega⟩

def vzip1qS32 (a b : Lanes 4) : Lanes 4 := fun i => if i.val % 2 = 0 then a ⟨i / 2, by omega⟩ else b ⟨i / 2, by omega⟩

def vzip2qS32 (a b : Lanes 4) : Lanes 4 :=
  fun i => if i.val % 2 = 0 then a ⟨2 + i / 2, by omega⟩ else b ⟨2 + i / 2, by omega⟩

/-- Shifted right by eight, and saturated to 16 bits unsigned. -/
def vqshrunN8S32 (a : Lanes 4) : Lanes 4 := fun i => max 0 (min (a i >>> (8 : Nat)) 0xffff)

def vcombineU16 (a b : Lanes 4) : Lanes 8 := fun i => if h : i.val < 4 then a ⟨i, h⟩ else b ⟨i - 4, by omega⟩

/-- Saturated to eight bits unsigned. -/
def vqmovnU16 (a : Lanes 8) : Fin 8 → Nat := fun i => (min (a i) 0xff).toNat

/-- A chroma byte about its middle. -/
def chroma16 (b : Fin 8 → UInt8) : Lanes 8 := vsubqS16 (vreinterpretqS16U16 (vmovlU8 b)) (vdup 128)

/-- A luma byte about its offset. -/
def luma16 (c : Coefficients) (b : Fin 8 → UInt8) : Lanes 8 :=
  vaddqS16 (vreinterpretqS16U16 (vmovlU8 b)) (vdup (s16 c.yOffset))

/-- `vget_low_s16` or `vget_high_s16`, for the first and the second half of a block. -/
def vgetS16 (i : Nat) (a : Lanes 8) : Lanes 4 := if i = 0 then vgetLowS16 a else vgetHighS16 a

/-- A channel of eight pixels: luma and a chroma term onto the two pixels it covers. -/
def pack (yy : Lanes 4 × Lanes 4) (t : Lanes 4) : Fin 8 → Nat :=
  vqmovnU16 (vcombineU16 (vqshrunN8S32 (vaddqS32 yy.1 (vzip1qS32 t t))) (vqshrunN8S32 (vaddqS32 yy.2 (vzip2qS32 t t))))

/-- The words sixteen pixels become. -/
def words (c : Coefficients) (yraw : Fin 16 → UInt8) (ub vb : Fin 8 → UInt8) : Fin 16 → Nat :=
  let cy : Lanes 4 := vdup (s16 c.y)
  let crv : Lanes 4 := vdup (s16 c.rv)
  let cgu : Lanes 4 := vdup (s16 c.gu)
  let cgv : Lanes 4 := vdup (s16 c.gv)
  let cbu : Lanes 4 := vdup (s16 c.bu)
  let half : Lanes 4 := vdup 128
  let uu := chroma16 ub
  let vv := chroma16 vb
  let rv (i : Nat) := vaddqS32 (vmullS16 (vgetS16 i vv) crv) half
  let gu (i : Nat) := vaddqS32 (vaddqS32 (vmullS16 (vgetS16 i uu) cgu) (vmullS16 (vgetS16 i vv) cgv)) half
  let bu (i : Nat) := vaddqS32 (vmullS16 (vgetS16 i uu) cbu) half
  let yb (i : Nat) := luma16 c (if i = 0 then vgetLowU8 yraw else vgetHighU8 yraw)
  let yy (i : Nat) := (vmullS16 (vgetLowS16 (yb i)) cy, vmullS16 (vgetHighS16 (yb i)) cy)
  fun j =>
    let block := j.val / 8
    let lane : Fin 8 := ⟨j % 8, by omega⟩
    wordOf (pack (yy block) (rv block) lane) (pack (yy block) (gu block) lane) (pack (yy block) (bu block) lane) 0xff

/-- Eight U and eight V, from one run of both or from a plane each. -/
def chroma (m : Memory) (row : Row) (interleaved uFirst : Bool) (col : Nat) : Option ((Fin 8 → UInt8) × (Fin 8 → UInt8)) :=
  if interleaved then do
    let both ← (if uFirst then row.u else row.v).load m col 16
    let first : Fin 8 → UInt8 := fun i => both ⟨2 * i, by omega⟩
    let second : Fin 8 → UInt8 := fun i => both ⟨2 * i + 1, by omega⟩
    some (if uFirst then (first, second) else (second, first))
  else do
    let ub ← row.u.load m (col / 2) 8
    let vb ← row.v.load m (col / 2) 8
    some (ub, vb)

def block (m : Memory) (row : Row) (c : Coefficients) (interleaved uFirst : Bool) (col : Nat) : Option (List Nat) := do
  let (ub, vb) ← chroma m row interleaved uFirst col
  let yraw ← row.y.load m col 16
  some (List.ofFn (words c yraw ub vb))

/-- One lane of it. -/
def lane (c : Coefficients) (y u v : UInt8) : Nat :=
  let yy := s16 (s16 y.toNat + s16 c.yOffset) * s16 c.y
  let uu := s16 (s16 u.toNat - 128)
  let vv := s16 (s16 v.toNat - 128)
  let channel (t : Int) : Nat := (min (max 0 (min (s32 (yy + t) >>> (8 : Nat)) 0xffff)) 0xff).toNat
  wordOf (channel (s32 (vv * s16 c.rv + 128))) (channel (s32 (s32 (uu * s16 c.gu + vv * s16 c.gv) + 128)))
    (channel (s32 (uu * s16 c.bu + 128))) 0xff

/-- A channel of one pixel. -/
theorem pack_eq (yy : Lanes 4 × Lanes 4) (t : Lanes 4) (y : Int) (i : Fin 8)
    (hy : (if h : i.val < 4 then yy.1 ⟨i, h⟩ else yy.2 ⟨i - 4, by omega⟩) = y) :
    pack yy t i = (min (max 0 (min (s32 (y + t ⟨i / 2, by omega⟩) >>> (8 : Nat)) 0xffff)) 0xff).toNat := by
  by_cases h : i.val < 4
  · simp only [h, dif_pos] at hy
    simp only [pack, vqmovnU16, vcombineU16, h, dif_pos, vqshrunN8S32, vaddqS32, vzip1qS32, ite_self, hy]
  · simp only [h, dif_neg, not_false_eq_true] at hy
    have hi : 2 + (i.val - 4) / 2 = i / 2 := by omega
    simp only [pack, vqmovnU16, vcombineU16, h, dif_neg, not_false_eq_true, vqshrunN8S32, vaddqS32, vzip2qS32, ite_self, hy, hi]

theorem vgetS16_eq (a : Lanes 8) (j : Fin 16) : vgetS16 (j / 8) a ⟨j % 8 / 2, by omega⟩ = a ⟨j / 2, by omega⟩ := by
  by_cases h : j.val / 8 = 0
  · have hi : j.val % 8 / 2 = j / 2 := by omega
    simp only [vgetS16, h, if_true, vgetLowS16, hi]
  · have hi : 4 + j.val % 8 / 2 = j / 2 := by omega
    simp only [vgetS16, h, if_false, vgetHighS16, hi]

theorem luma16_eq (c : Coefficients) (yraw : Fin 16 → UInt8) (j : Fin 16) :
    luma16 c (if j.val / 8 = 0 then vgetLowU8 yraw else vgetHighU8 yraw) ⟨j % 8, by omega⟩ =
      s16 (s16 (yraw j).toNat + s16 c.yOffset) := by
  by_cases h : j.val / 8 = 0
  · have hi : (⟨j.val % 8, by omega⟩ : Fin 16) = j := Fin.ext (show j.val % 8 = j.val by omega)
    simp only [luma16, h, if_true, vaddqS16, vreinterpretqS16U16, vmovlU8, vgetLowU8, vdup, hi]
  · have hi : (⟨8 + j.val % 8, by omega⟩ : Fin 16) = j := Fin.ext (show 8 + j.val % 8 = j.val by omega)
    simp only [luma16, h, if_false, vaddqS16, vreinterpretqS16U16, vmovlU8, vgetHighU8, vdup, hi]

theorem words_eq_lane (c : Coefficients) (yraw : Fin 16 → UInt8) (ub vb : Fin 8 → UInt8) (j : Fin 16) :
    words c yraw ub vb j = lane c (yraw j) (ub ⟨j / 2, by omega⟩) (vb ⟨j / 2, by omega⟩) := by
  have hy : ∀ b : Lanes 8, (if h : j.val % 8 < 4 then vgetLowS16 b ⟨j % 8, h⟩ else vgetHighS16 b ⟨j % 8 - 4, by omega⟩) =
      b ⟨j % 8, by omega⟩ := by
    intro b
    by_cases h : j.val % 8 < 4
    · simp only [h, dif_pos, vgetLowS16]
    · have hi : 4 + (j.val % 8 - 4) = j % 8 := by omega
      simp only [h, dif_neg, not_false_eq_true, vgetHighS16, hi]
  have hp : ∀ t : Lanes 4, pack
      (vmullS16 (vgetLowS16 (luma16 c (if j.val / 8 = 0 then vgetLowU8 yraw else vgetHighU8 yraw))) (vdup (s16 c.y)),
        vmullS16 (vgetHighS16 (luma16 c (if j.val / 8 = 0 then vgetLowU8 yraw else vgetHighU8 yraw))) (vdup (s16 c.y)))
      t ⟨j % 8, by omega⟩ = (min (max 0 (min (s32 (s16 (s16 (yraw j).toNat + s16 c.yOffset) * s16 c.y +
        t ⟨j % 8 / 2, by omega⟩) >>> (8 : Nat)) 0xffff)) 0xff).toNat := by
    intro t
    apply pack_eq
    rw [← luma16_eq c yraw j, ← hy (luma16 c _)]
    simp only [vmullS16, vdup]
    split <;> rfl
  simp only [words, hp, lane, vaddqS32, vmullS16, vgetS16_eq, vdup, chroma16, vsubqS16, vreinterpretqS16U16, vmovlU8]

/-- A channel's saturations are the scalar clamp. -/
theorem channel_eq {x t : Int} (hx : Held x) (ht : Held t) :
    (min (max 0 (min (s32 (x + s32 t) >>> (8 : Nat)) 0xffff)) 0xff).toNat = clamp ((x + t) >>> (8 : Nat)) := by
  obtain ⟨hx1, hx2⟩ := hx
  obtain ⟨ht1, ht2⟩ := ht
  rw [s32_eq (x := t) (by omega) (by omega), s32_eq (by omega) (by omega)]
  unfold clamp
  generalize (x + t) >>> (8 : Nat) = z
  omega

theorem lane_eq_pixel (bt709 fullRange : Bool) (y u v : UInt8) :
    lane (coefficients bt709 fullRange) y u v = pixel (coefficients bt709 fullRange) y u v := by
  obtain ⟨hy, hrv, hgu, hbu⟩ := terms_held bt709 fullRange y u v
  generalize hc : coefficients bt709 fullRange = c at *
  obtain ⟨ey, erv, egu, egv, ebu, eo, o1, o2⟩ := small bt709 fullRange hc.symm
  have by_ := y.toNat_lt
  have bu := u.toNat_lt
  have bv := v.toNat_lt
  have eyy : s16 (s16 y.toNat + s16 c.yOffset) * s16 c.y = (terms c y u v).y := by
    rw [eo, ey, s16_eq (x := y.toNat) (by omega) (by omega), s16_eq (by omega) (by omega)]
    rfl
  have euu : s16 (s16 u.toNat - 128) = u.toNat - 128 := by
    rw [s16_eq (x := u.toNat) (by omega) (by omega), s16_eq (by omega) (by omega)]
  have evv : s16 (s16 v.toNat - 128) = v.toNat - 128 := by
    rw [s16_eq (x := v.toNat) (by omega) (by omega), s16_eq (by omega) (by omega)]
  have hg : s32 ((u.toNat - 128) * c.gu + (v.toNat - 128) * c.gv) = (u.toNat - 128) * c.gu + (v.toNat - 128) * c.gv := by
    obtain ⟨h1, h2⟩ := hgu
    simp only [terms, Int.mul_comm c.gu, Int.mul_comm c.gv] at h1 h2
    exact s32_eq (by omega) (by omega)
  have trv : (v.toNat - 128) * c.rv + 128 = (terms c y u v).rv := by rw [Int.mul_comm]; rfl
  have tgu : (u.toNat - 128) * c.gu + (v.toNat - 128) * c.gv + 128 = (terms c y u v).gu := by
    rw [Int.mul_comm _ c.gu, Int.mul_comm _ c.gv]; rfl
  have tbu : (u.toNat - 128) * c.bu + 128 = (terms c y u v).bu := by rw [Int.mul_comm]; rfl
  rw [pixel_eq_wordOf]
  simp only [lane, eyy, euu, evv, erv, egu, egv, ebu, hg, trv, tgu, tbu]
  rw [channel_eq hy hrv, channel_eq hy hgu, channel_eq hy hbu]

end Neon

/-! ## SSE2 -/

namespace Sse2

/-- The bytes of a register, which each instruction reads as lanes of its own width. -/
abbrev M128 := Fin 16 → UInt8

def byteOf (x : Int) : UInt8 := UInt8.ofNat (x % 0x100).toNat

def epi16 (r : M128) (i : Fin 8) : Int :=
  s16 ((r ⟨2 * i, by omega⟩).toNat + 0x100 * (r ⟨2 * i + 1, by omega⟩).toNat)

def epi32 (r : M128) (i : Fin 4) : Int :=
  s32 ((r ⟨4 * i, by omega⟩).toNat + 0x100 * (r ⟨4 * i + 1, by omega⟩).toNat + 0x10000 * (r ⟨4 * i + 2, by omega⟩).toNat +
    0x1000000 * (r ⟨4 * i + 3, by omega⟩).toNat)

def ofEpi16 (f : Fin 8 → Int) : M128 :=
  fun i => byteOf (if i.val % 2 = 0 then f ⟨i / 2, by omega⟩ else f ⟨i / 2, by omega⟩ / 0x100)

def ofEpi32 (f : Fin 4 → Int) : M128 :=
  fun i => byteOf (if i.val % 4 = 0 then f ⟨i / 4, by omega⟩ else if i.val % 4 = 1 then f ⟨i / 4, by omega⟩ / 0x100
    else if i.val % 4 = 2 then f ⟨i / 4, by omega⟩ / 0x10000 else f ⟨i / 4, by omega⟩ / 0x1000000)

def setzeroSi128 : M128 := fun _ => 0

def set1Epi8 (x : Int) : M128 := fun _ => byteOf x

def set1Epi16 (x : Int) : M128 := ofEpi16 fun _ => x

def set1Epi32 (x : Int) : M128 := ofEpi32 fun _ => x

def andSi128 (a b : M128) : M128 := fun i => a i &&& b i

/-- Each 16-bit lane shifted right by eight, zeros coming in. -/
def srliEpi16 (a : M128) : M128 := fun i => if h : i.val % 2 = 0 then a ⟨i + 1, by omega⟩ else 0

def subEpi16 (a b : M128) : M128 := ofEpi16 fun i => epi16 a i - epi16 b i

def addEpi16 (a b : M128) : M128 := ofEpi16 fun i => epi16 a i + epi16 b i

def addEpi32 (a b : M128) : M128 := ofEpi32 fun i => epi32 a i + epi32 b i

/-- Each pair of 16-bit lanes multiplied and the two products added. -/
def maddEpi16 (a b : M128) : M128 :=
  ofEpi32 fun i => epi16 a ⟨2 * i, by omega⟩ * epi16 b ⟨2 * i, by omega⟩ +
    epi16 a ⟨2 * i + 1, by omega⟩ * epi16 b ⟨2 * i + 1, by omega⟩

/-- Each 32-bit lane shifted right by eight, its sign coming in. -/
def sraiEpi32 (a : M128) : M128 := ofEpi32 fun i => epi32 a i >>> (8 : Nat)

def unpackloEpi8 (a b : M128) : M128 := fun i => if i.val % 2 = 0 then a ⟨i / 2, by omega⟩ else b ⟨i / 2, by omega⟩

def unpackhiEpi8 (a b : M128) : M128 := fun i => if i.val % 2 = 0 then a ⟨8 + i / 2, by omega⟩ else b ⟨8 + i / 2, by omega⟩

def unpackloEpi16 (a b : M128) : M128 :=
  fun i => if i.val / 2 % 2 = 0 then a ⟨i / 4 * 2 + i % 2, by omega⟩ else b ⟨i / 4 * 2 + i % 2, by omega⟩

def unpackhiEpi16 (a b : M128) : M128 :=
  fun i => if i.val / 2 % 2 = 0 then a ⟨8 + i / 4 * 2 + i % 2, by omega⟩ else b ⟨8 + i / 4 * 2 + i % 2, by omega⟩

def unpackloEpi32 (a b : M128) : M128 :=
  fun i => if i.val / 4 % 2 = 0 then a ⟨i / 8 * 4 + i % 4, by omega⟩ else b ⟨i / 8 * 4 + i % 4, by omega⟩

def unpackhiEpi32 (a b : M128) : M128 :=
  fun i => if i.val / 4 % 2 = 0 then a ⟨8 + i / 8 * 4 + i % 4, by omega⟩ else b ⟨8 + i / 8 * 4 + i % 4, by omega⟩

/-- Two registers of 32-bit lanes into one of 16-bit ones, saturated. -/
def packsEpi32 (a b : M128) : M128 :=
  ofEpi16 fun i => max (-0x8000) (min (if h : i.val < 4 then epi32 a ⟨i, h⟩ else epi32 b ⟨i - 4, by omega⟩) 0x7fff)

/-- Two registers of 16-bit lanes into one of bytes, saturated. -/
def packusEpi16 (a b : M128) : M128 :=
  fun i => UInt8.ofNat (max 0 (min (if h : i.val < 8 then epi16 a ⟨i, h⟩ else epi16 b ⟨i - 8, by omega⟩) 0xff)).toNat

/-- Two 16-bit coefficients in one 32-bit lane. -/
def pairs (lo hi : Int) : Int := s32 (((hi % 0x100000000).toNat <<< 16) % 0x100000000 ||| (lo % 0x10000).toNat : Nat)

/-- Luma of four pixels at a time, from the bytes of sixteen. -/
def luma (c : Coefficients) (yraw : M128) (i : Nat) : M128 :=
  let yOff := set1Epi16 (s16 c.yOffset)
  let cy := set1Epi32 (pairs c.y 0)
  let ylo := addEpi16 (unpackloEpi8 yraw setzeroSi128) yOff
  let yhi := addEpi16 (unpackhiEpi8 yraw setzeroSi128) yOff
  match i with
  | 0 => maddEpi16 (unpackloEpi16 ylo setzeroSi128) cy
  | 1 => maddEpi16 (unpackhiEpi16 ylo setzeroSi128) cy
  | 2 => maddEpi16 (unpackloEpi16 yhi setzeroSi128) cy
  | _ => maddEpi16 (unpackhiEpi16 yhi setzeroSi128) cy

/-- A chroma term of four pixels at a time, from eight U and eight V and a pair of
coefficients. -/
def term (ub vb : M128) (coefficient : Int) (i : Nat) : M128 :=
  let uu := subEpi16 ub (set1Epi16 128)
  let vv := subEpi16 vb (set1Epi16 128)
  let uv (i : Nat) := if i = 0 then unpackloEpi16 uu vv else unpackhiEpi16 uu vv
  let t (i : Nat) := addEpi32 (maddEpi16 (uv i) (set1Epi32 coefficient)) (set1Epi32 128)
  if i % 2 = 0 then unpackloEpi32 (t (i / 2)) (t (i / 2)) else unpackhiEpi32 (t (i / 2)) (t (i / 2))

/-- Sixteen bytes of one channel. -/
def channel (yy terms : Nat → M128) : M128 :=
  let at_ (i : Nat) := sraiEpi32 (addEpi32 (yy i) (terms i))
  packusEpi16 (packsEpi32 (at_ 0) (at_ 1)) (packsEpi32 (at_ 2) (at_ 3))

/-- The words a register's sixteen bytes are in memory. -/
def store (r : M128) (i : Fin 4) : Nat :=
  wordOf (r ⟨4 * i, by omega⟩).toNat (r ⟨4 * i + 1, by omega⟩).toNat (r ⟨4 * i + 2, by omega⟩).toNat (r ⟨4 * i + 3, by omega⟩).toNat

/-- The words sixteen pixels become. -/
def words (c : Coefficients) (yraw ub vb : M128) : Fin 16 → Nat :=
  let yy := luma c yraw
  let r := channel yy (term ub vb (pairs 0 c.rv))
  let g := channel yy (term ub vb (pairs c.gu c.gv))
  let b := channel yy (term ub vb (pairs c.bu 0))
  let opaque_ := set1Epi8 (-1)
  let rg (half : Nat) := if half = 0 then unpackloEpi8 r g else unpackhiEpi8 r g
  let ba (half : Nat) := if half = 0 then unpackloEpi8 b opaque_ else unpackhiEpi8 b opaque_
  fun j =>
    let half := j.val / 8
    store (if j.val / 4 % 2 = 0 then unpackloEpi16 (rg half) (ba half) else unpackhiEpi16 (rg half) (ba half))
      ⟨j % 4, by omega⟩

/-- `_mm_loadl_epi64`: eight bytes, zeros above them. -/
def loadlEpi64 (m : Memory) (s : Slice) (at_ : Nat) : Option M128 := do
  let b ← s.load m at_ 8
  some fun i => if h : i.val < 8 then b ⟨i, h⟩ else 0

/-- Eight U and eight V as 16-bit lanes, whichever way they came. -/
def chroma (m : Memory) (row : Row) (interleaved uFirst : Bool) (col : Nat) : Option (M128 × M128) :=
  if interleaved then do
    let both ← (if uFirst then row.u else row.v).load m col 16
    let first := andSi128 both (set1Epi16 0xff)
    let second := srliEpi16 both
    some (if uFirst then (first, second) else (second, first))
  else do
    let ub ← loadlEpi64 m row.u (col / 2)
    let vb ← loadlEpi64 m row.v (col / 2)
    some (unpackloEpi8 ub setzeroSi128, unpackloEpi8 vb setzeroSi128)

def block (m : Memory) (row : Row) (c : Coefficients) (interleaved uFirst : Bool) (col : Nat) : Option (List Nat) := do
  let (ub, vb) ← chroma m row interleaved uFirst col
  let yraw ← row.y.load m col 16
  some (List.ofFn (words c yraw ub vb))

/-! ### Lanes -/

theorem byteOf_toNat (x : Int) : ((byteOf x).toNat : Int) = x % 0x100 := by
  unfold byteOf
  rw [UInt8.toNat_ofNat']
  omega

@[simp] theorem epi16_ofEpi16 (f : Fin 8 → Int) (i : Fin 8) : epi16 (ofEpi16 f) i = s16 (f i) := by
  have h0 : 2 * i.val % 2 = 0 := by omega
  have h1 : (2 * i.val + 1) % 2 ≠ 0 := by omega
  have d0 : 2 * i.val / 2 = i := by omega
  have d1 : (2 * i.val + 1) / 2 = i := by omega
  simp only [epi16, ofEpi16, h0, h1, d0, d1, if_true, if_false, byteOf_toNat, Fin.eta]
  unfold s16
  omega

@[simp] theorem epi32_ofEpi32 (f : Fin 4 → Int) (i : Fin 4) : epi32 (ofEpi32 f) i = s32 (f i) := by
  have h0 : 4 * i.val % 4 = 0 := by omega
  have h1 : (4 * i.val + 1) % 4 = 1 := by omega
  have h2 : (4 * i.val + 2) % 4 = 2 := by omega
  have h3 : (4 * i.val + 3) % 4 = 3 := by omega
  have d0 : 4 * i.val / 4 = i := by omega
  have d1 : (4 * i.val + 1) / 4 = i := by omega
  have d2 : (4 * i.val + 2) / 4 = i := by omega
  have d3 : (4 * i.val + 3) / 4 = i := by omega
  simp only [epi32, ofEpi32, h0, h1, h2, h3, d0, d1, d2, d3, if_true, byteOf_toNat, Fin.eta]
  show s32 (f i % 0x100 + 0x100 * (f i / 0x100 % 0x100) + 0x10000 * (f i / 0x10000 % 0x100) +
    0x1000000 * (f i / 0x1000000 % 0x100)) = _
  unfold s32
  omega

@[simp] theorem epi16_setzeroSi128 (i : Fin 8) : epi16 setzeroSi128 i = 0 := by
  simp [epi16, setzeroSi128, s16]

@[simp] theorem epi16_unpackloEpi8 (a : M128) (i : Fin 8) :
    epi16 (unpackloEpi8 a setzeroSi128) i = s16 (a ⟨i, by omega⟩).toNat := by
  have h0 : 2 * i.val % 2 = 0 := by omega
  have h1 : (2 * i.val + 1) % 2 ≠ 0 := by omega
  have d0 : 2 * i.val / 2 = i := by omega
  simp only [epi16, unpackloEpi8, h0, h1, d0, if_true, if_false]
  simp [setzeroSi128]

@[simp] theorem epi16_unpackhiEpi8 (a : M128) (i : Fin 8) :
    epi16 (unpackhiEpi8 a setzeroSi128) i = s16 (a ⟨8 + i, by omega⟩).toNat := by
  have h0 : 2 * i.val % 2 = 0 := by omega
  have h1 : (2 * i.val + 1) % 2 ≠ 0 := by omega
  have d0 : 2 * i.val / 2 = i := by omega
  simp only [epi16, unpackhiEpi8, h0, h1, d0, if_true, if_false]
  simp [setzeroSi128]

theorem epi16_unpackloEpi16 (a b : M128) (i : Fin 4) :
    epi16 (unpackloEpi16 a b) ⟨2 * i, by omega⟩ = epi16 a ⟨i, by omega⟩ ∧
      epi16 (unpackloEpi16 a b) ⟨2 * i + 1, by omega⟩ = epi16 b ⟨i, by omega⟩ := by
  fin_cases i <;> exact ⟨rfl, rfl⟩

theorem epi16_unpackhiEpi16 (a b : M128) (i : Fin 4) :
    epi16 (unpackhiEpi16 a b) ⟨2 * i, by omega⟩ = epi16 a ⟨4 + i, by omega⟩ ∧
      epi16 (unpackhiEpi16 a b) ⟨2 * i + 1, by omega⟩ = epi16 b ⟨4 + i, by omega⟩ := by
  fin_cases i <;> exact ⟨rfl, rfl⟩

theorem epi32_unpackloEpi32 (a : M128) (i : Fin 4) : epi32 (unpackloEpi32 a a) i = epi32 a ⟨i / 2, by omega⟩ := by
  fin_cases i <;> rfl

theorem epi32_unpackhiEpi32 (a : M128) (i : Fin 4) : epi32 (unpackhiEpi32 a a) i = epi32 a ⟨2 + i / 2, by omega⟩ := by
  fin_cases i <;> rfl

theorem store_unpack (r g b a : M128) (i : Fin 4) :
    store (unpackloEpi16 (unpackloEpi8 r g) (unpackloEpi8 b a)) i =
        wordOf (r ⟨i, by omega⟩).toNat (g ⟨i, by omega⟩).toNat (b ⟨i, by omega⟩).toNat (a ⟨i, by omega⟩).toNat ∧
      store (unpackhiEpi16 (unpackloEpi8 r g) (unpackloEpi8 b a)) i =
        wordOf (r ⟨4 + i, by omega⟩).toNat (g ⟨4 + i, by omega⟩).toNat (b ⟨4 + i, by omega⟩).toNat (a ⟨4 + i, by omega⟩).toNat ∧
      store (unpackloEpi16 (unpackhiEpi8 r g) (unpackhiEpi8 b a)) i =
        wordOf (r ⟨8 + i, by omega⟩).toNat (g ⟨8 + i, by omega⟩).toNat (b ⟨8 + i, by omega⟩).toNat (a ⟨8 + i, by omega⟩).toNat ∧
      store (unpackhiEpi16 (unpackhiEpi8 r g) (unpackhiEpi8 b a)) i =
        wordOf (r ⟨12 + i, by omega⟩).toNat (g ⟨12 + i, by omega⟩).toNat (b ⟨12 + i, by omega⟩).toNat
          (a ⟨12 + i, by omega⟩).toNat := by
  fin_cases i <;> exact ⟨rfl, rfl, rfl, rfl⟩

theorem pairs_eq (lo hi : Int) : pairs lo hi = s32 (hi % 0x10000 * 0x10000 + lo % 0x10000) := by
  unfold pairs
  have hl : (lo % 0x10000).toNat < 2 ^ 16 := by omega
  have hm : (hi % 0x100000000).toNat <<< 16 % 0x100000000 = (hi % 0x10000).toNat <<< 16 := by
    rw [Nat.shiftLeft_eq, Nat.shiftLeft_eq]
    omega
  have hn : (((hi % 0x10000).toNat * 2 ^ 16 + (lo % 0x10000).toNat : Nat) : Int) = hi % 0x10000 * 0x10000 + lo % 0x10000 := by
    omega
  rw [hm, ← Nat.shiftLeft_add_eq_or_of_lt hl, Nat.shiftLeft_eq, hn]

/-- The two 16-bit halves of each lane of a pair of coefficients. -/
theorem epi16_set1Epi32_pairs (lo hi : Int) (i : Fin 4) :
    epi16 (set1Epi32 (pairs lo hi)) ⟨2 * i, by omega⟩ = s16 lo ∧
      epi16 (set1Epi32 (pairs lo hi)) ⟨2 * i + 1, by omega⟩ = s16 hi := by
  have h0 : 2 * (2 * i.val) % 4 = 0 := by omega
  have h1 : (2 * (2 * i.val) + 1) % 4 = 1 := by omega
  have h2 : (2 * (2 * i.val + 1)) % 4 = 2 := by omega
  have h3 : (2 * (2 * i.val + 1) + 1) % 4 = 3 := by omega
  rw [pairs_eq]
  simp only [epi16, set1Epi32, ofEpi32, h0, h1, h2, h3, if_true, byteOf_toNat]
  generalize hx : s32 (hi % 0x10000 * 0x10000 + lo % 0x10000) = x
  unfold s32 at hx
  show s16 (x % 0x100 + 0x100 * (x / 0x100 % 0x100)) = _ ∧ s16 (x / 0x10000 % 0x100 + 0x100 * (x / 0x1000000 % 0x100)) = _
  unfold s16
  omega

theorem epi32_madd_unpacklo (a b : M128) (lo hi : Int) (i : Fin 4) :
    epi32 (maddEpi16 (unpackloEpi16 a b) (set1Epi32 (pairs lo hi))) i =
      s32 (epi16 a ⟨i, by omega⟩ * s16 lo + epi16 b ⟨i, by omega⟩ * s16 hi) := by
  obtain ⟨p1, p2⟩ := epi16_set1Epi32_pairs lo hi i
  obtain ⟨a1, a2⟩ := epi16_unpackloEpi16 a b i
  simp only [maddEpi16, epi32_ofEpi32, p1, p2, a1, a2]

theorem epi32_madd_unpackhi (a b : M128) (lo hi : Int) (i : Fin 4) :
    epi32 (maddEpi16 (unpackhiEpi16 a b) (set1Epi32 (pairs lo hi))) i =
      s32 (epi16 a ⟨4 + i, by omega⟩ * s16 lo + epi16 b ⟨4 + i, by omega⟩ * s16 hi) := by
  obtain ⟨p1, p2⟩ := epi16_set1Epi32_pairs lo hi i
  obtain ⟨a1, a2⟩ := epi16_unpackhiEpi16 a b i
  simp only [maddEpi16, epi32_ofEpi32, p1, p2, a1, a2]

/-- The luma of one pixel. -/
theorem epi32_luma (c : Coefficients) (yraw : M128) (j : Fin 16) :
    epi32 (luma c yraw (j / 4)) ⟨j % 4, by omega⟩ = s32 (s16 (s16 (yraw j).toNat + s16 (s16 c.yOffset)) * s16 c.y) := by
  have at_ : ∀ k (hk : k < 16), k = j.val → yraw ⟨k, hk⟩ = yraw j := by
    intro k hk h
    exact congrArg yraw (Fin.ext h)
  have hj : j.val / 4 = 0 ∨ j.val / 4 = 1 ∨ j.val / 4 = 2 ∨ j.val / 4 = 3 := by omega
  rcases hj with h | h | h | h <;> rw [h] <;>
    simp only [luma, epi32_madd_unpacklo, epi32_madd_unpackhi, epi16_setzeroSi128, Int.zero_mul, Int.add_zero, addEpi16,
      epi16_ofEpi16, epi16_unpackloEpi8, epi16_unpackhiEpi8, set1Epi16]
  · rw [at_ _ _ (by omega)]
  · rw [at_ _ _ (by omega)]
  · rw [at_ _ _ (by omega)]
  · rw [at_ _ _ (by omega)]

theorem epi32_set1Epi32 (x : Int) (i : Fin 4) : epi32 (set1Epi32 x) i = s32 x := epi32_ofEpi32 _ i

/-- A chroma term of one pixel. -/
theorem epi32_term (ub vb : M128) (lo hi : Int) (j : Fin 16) :
    epi32 (term ub vb (pairs lo hi) (j / 4)) ⟨j % 4, by omega⟩ =
      s32 (s32 (s16 (epi16 ub ⟨j / 2, by omega⟩ - s16 128) * s16 lo + s16 (epi16 vb ⟨j / 2, by omega⟩ - s16 128) * s16 hi) +
        s32 128) := by
  have hj : j.val / 4 = 0 ∨ j.val / 4 = 1 ∨ j.val / 4 = 2 ∨ j.val / 4 = 3 := by omega
  have at_ : ∀ (r : M128) k (hk : k < 8), k = j.val / 2 → epi16 r ⟨k, hk⟩ = epi16 r ⟨j / 2, by omega⟩ := by
    intro r k hk h
    exact congrArg (epi16 r) (Fin.ext h)
  rcases hj with h | h | h | h <;> rw [h] <;>
    simp only [term, Nat.reduceMod, Nat.reduceDiv, one_ne_zero, if_true, if_false, epi32_unpackloEpi32, epi32_unpackhiEpi32,
      addEpi32, epi32_ofEpi32, epi32_madd_unpacklo, epi32_madd_unpackhi, epi32_set1Epi32, subEpi16, epi16_ofEpi16, set1Epi16]
  · rw [at_ ub _ _ (by omega), at_ vb _ _ (by omega)]
  · rw [at_ ub _ _ (by omega), at_ vb _ _ (by omega)]
  · rw [at_ ub _ _ (by omega), at_ vb _ _ (by omega)]
  · rw [at_ ub _ _ (by omega), at_ vb _ _ (by omega)]

/-- A channel's byte from the luma and the term of its pixel. -/
def saturated (y t : Int) : Nat :=
  (max 0 (min (s16 (max (-0x8000) (min (s32 (s32 (y + t) >>> (8 : Nat))) 0x7fff))) 0xff)).toNat

theorem saturated_lt (y t : Int) : saturated y t < 0x100 := by
  unfold saturated
  omega

theorem channel_eq (yy t : Nat → M128) (j : Fin 16) :
    (channel yy t j).toNat = saturated (epi32 (yy (j / 4)) ⟨j % 4, by omega⟩) (epi32 (t (j / 4)) ⟨j % 4, by omega⟩) := by
  have hlt := saturated_lt (epi32 (yy (j / 4)) ⟨j % 4, by omega⟩) (epi32 (t (j / 4)) ⟨j % 4, by omega⟩)
  have hb : ∀ x : Nat, x < 0x100 → (UInt8.ofNat x).toNat = x := by
    intro x hx
    rw [UInt8.toNat_ofNat']
    omega
  have hc : channel yy t j =
      UInt8.ofNat (saturated (epi32 (yy (j / 4)) ⟨j % 4, by omega⟩) (epi32 (t (j / 4)) ⟨j % 4, by omega⟩)) := by
    have hj : j.val / 4 = 0 ∨ j.val / 4 = 1 ∨ j.val / 4 = 2 ∨ j.val / 4 = 3 := by omega
    rcases hj with h | h | h | h <;> simp only [h]
    · have h8 : j.val < 8 := by omega
      have h4 : j.val < 4 := by omega
      have hi : j.val % 4 = j := by omega
      simp only [channel, packusEpi16, packsEpi32, h8, h4, dif_pos, epi16_ofEpi16, sraiEpi32, addEpi32, epi32_ofEpi32, hi,
        saturated]
    · have h8 : j.val < 8 := by omega
      have h4 : ¬ j.val < 4 := by omega
      have hi : j.val % 4 = j - 4 := by omega
      simp only [channel, packusEpi16, packsEpi32, h8, h4, dif_pos, dif_neg, not_false_eq_true, epi16_ofEpi16, sraiEpi32,
        addEpi32, epi32_ofEpi32, hi, saturated]
    · have h8 : ¬ j.val < 8 := by omega
      have h4 : j.val - 8 < 4 := by omega
      have hi : j.val % 4 = j - 8 := by omega
      simp only [channel, packusEpi16, packsEpi32, h8, h4, dif_pos, dif_neg, not_false_eq_true, epi16_ofEpi16, sraiEpi32,
        addEpi32, epi32_ofEpi32, hi, saturated]
    · have h8 : ¬ j.val < 8 := by omega
      have h4 : ¬ j.val - 8 < 4 := by omega
      have hi : j.val % 4 = j - 8 - 4 := by omega
      simp only [channel, packusEpi16, packsEpi32, h8, h4, dif_neg, not_false_eq_true, epi16_ofEpi16, sraiEpi32,
        addEpi32, epi32_ofEpi32, hi, saturated]
  rw [hc, hb _ hlt]

/-- The saturating packs are the scalar clamp. -/
theorem saturated_eq {y t : Int} (hy : Held y) (ht : Held t) : saturated y t = clamp ((y + t) >>> (8 : Nat)) := by
  obtain ⟨hy1, hy2⟩ := hy
  obtain ⟨ht1, ht2⟩ := ht
  unfold saturated
  rw [s32_eq (x := y + t) (by omega) (by omega)]
  have hs : (y + t) >>> (8 : Nat) = (y + t) / 0x100 := Int.shiftRight_eq_div_pow _ _
  rw [hs, s32_eq (x := (y + t) / 0x100) (by omega) (by omega)]
  unfold s16 clamp
  omega

theorem words_eq (c : Coefficients) (yraw ub vb : M128) (j : Fin 16) :
    words c yraw ub vb j =
      wordOf (channel (luma c yraw) (term ub vb (pairs 0 c.rv)) j).toNat
        (channel (luma c yraw) (term ub vb (pairs c.gu c.gv)) j).toNat
        (channel (luma c yraw) (term ub vb (pairs c.bu 0)) j).toNat 0xff := by
  have ho : (set1Epi8 (-1) j).toNat = 0xff := rfl
  rw [← ho]
  have at_ : ∀ (r : M128) k (hk : k < 16), k = j.val → r ⟨k, hk⟩ = r j := by
    intro r k hk h
    exact congrArg r (Fin.ext h)
  unfold words
  generalize channel (luma c yraw) (term ub vb (pairs 0 c.rv)) = r
  generalize channel (luma c yraw) (term ub vb (pairs c.gu c.gv)) = g
  generalize channel (luma c yraw) (term ub vb (pairs c.bu 0)) = b
  generalize set1Epi8 (-1) = a
  obtain ⟨s0, s1, s2, s3⟩ := store_unpack r g b a ⟨j % 4, by omega⟩
  by_cases h8 : j.val / 8 = 0
  · by_cases h4 : j.val / 4 % 2 = 0
    · simp only [h8, h4, if_true, s0]
      rw [at_ r _ _ (by omega), at_ g _ _ (by omega), at_ b _ _ (by omega), at_ a _ _ (by omega)]
    · simp only [h8, h4, if_true, if_false, s1]
      rw [at_ r _ _ (by omega), at_ g _ _ (by omega), at_ b _ _ (by omega), at_ a _ _ (by omega)]
  · by_cases h4 : j.val / 4 % 2 = 0
    · simp only [h8, h4, if_true, if_false, s2]
      rw [at_ r _ _ (by omega), at_ g _ _ (by omega), at_ b _ _ (by omega), at_ a _ _ (by omega)]
    · simp only [h8, h4, if_false, s3]
      rw [at_ r _ _ (by omega), at_ g _ _ (by omega), at_ b _ _ (by omega), at_ a _ _ (by omega)]

theorem words_eq_pixel (bt709 fullRange : Bool) (yraw ub vb : M128) (u v : Fin 8 → UInt8)
    (hu : ∀ i, epi16 ub i = (u i).toNat) (hv : ∀ i, epi16 vb i = (v i).toNat) (j : Fin 16) :
    words (coefficients bt709 fullRange) yraw ub vb j =
      pixel (coefficients bt709 fullRange) (yraw j) (u ⟨j / 2, by omega⟩) (v ⟨j / 2, by omega⟩) := by
  generalize hyj : yraw j = y
  generalize huj : u ⟨j / 2, by omega⟩ = uj
  generalize hvj : v ⟨j / 2, by omega⟩ = vj
  obtain ⟨hy, hrv, hgu, hbu⟩ := terms_held bt709 fullRange y uj vj
  rw [words_eq]
  simp only [channel_eq, epi32_luma, epi32_term, hu, hv, hyj, huj, hvj]
  generalize hc : coefficients bt709 fullRange = c at *
  obtain ⟨ey, erv, egu, egv, ebu, eo, o1, o2⟩ := small bt709 fullRange hc.symm
  have by_ := y.toNat_lt
  have bu := uj.toNat_lt
  have bv := vj.toNat_lt
  have e0 : s16 0 = 0 := rfl
  have e128 : s16 128 = 128 := rfl
  have f128 : s32 128 = 128 := rfl
  have euu : s16 (uj.toNat - 128) = uj.toNat - 128 := s16_eq (by omega) (by omega)
  have evv : s16 (vj.toNat - 128) = vj.toNat - 128 := s16_eq (by omega) (by omega)
  have eyy : s16 (s16 y.toNat + s16 (s16 c.yOffset)) = y.toNat + c.yOffset := by
    rw [eo, eo, s16_eq (x := y.toNat) (by omega) (by omega), s16_eq (by omega) (by omega)]
  have held : ∀ {x : Int}, Held x → s32 x = x := by
    intro x hx
    obtain ⟨h1, h2⟩ := hx
    exact s32_eq (by omega) (by omega)
  -- a term before its half is added is held as well
  have before : ∀ {x : Int}, Held (x + 128) → s32 (s32 x + 128) = x + 128 := by
    intro x hx
    obtain ⟨h1, h2⟩ := hx
    rw [s32_eq (x := x) (by omega) (by omega), s32_eq (by omega) (by omega)]
  have ty : s32 ((y.toNat + c.yOffset) * c.y) = (terms c y uj vj).y := held hy
  have trv : s32 (s32 ((vj.toNat - 128) * c.rv) + 128) = (terms c y uj vj).rv := by
    rw [Int.mul_comm]
    exact before hrv
  have tgu : s32 (s32 ((uj.toNat - 128) * c.gu + (vj.toNat - 128) * c.gv) + 128) = (terms c y uj vj).gu := by
    rw [Int.mul_comm _ c.gu, Int.mul_comm _ c.gv]
    exact before hgu
  have tbu : s32 (s32 ((uj.toNat - 128) * c.bu) + 128) = (terms c y uj vj).bu := by
    rw [Int.mul_comm]
    exact before hbu
  rw [pixel_eq_wordOf]
  simp only [e0, e128, f128, euu, evv, eyy, ey, erv, egu, egv, ebu, Int.mul_zero, Int.zero_add, Int.add_zero, ty, trv, tgu, tbu]
  rw [saturated_eq hy hrv, saturated_eq hy hgu, saturated_eq hy hbu]

end Sse2

/-! ## A row of blocks -/

/-- Sixteen words from `col` on. -/
def putBlock (out : List Nat) (col : Nat) (words : List Nat) : List Nat := out.take col ++ words ++ out.drop (col + 16)

/-- `n` blocks from `col` on. -/
def blocksFrom (block : Nat → Option (List Nat)) : Nat → Nat → List Nat → Option (List Nat)
  | 0, _, out => some out
  | n + 1, col, out => do
    let words ← block col
    blocksFrom block n (col + 16) (putBlock out col words)

/-- The vectorised row over its blocks: what it did, and how many pixels; none of them for a
layout or lengths it does not cover. -/
def rowBlocks (block : Bool → Bool → Nat → Option (List Nat)) (row : Row) (l : Layout) (out : List Nat) (w : Nat) :
    Option (List Nat × Nat) :=
  if l.yColInc ≠ 1 ∨ l.horizSubsampling ≠ 2 then some (out, 0)
  else
    let uFirst : Bool := row.v.ptr = row.u.ptr + 1
    let interleaved : Bool := l.uvColInc = 2 ∧ (uFirst ∨ row.u.ptr = row.v.ptr + 1)
    if l.uvColInc ≠ 1 ∧ ¬ interleaved then some (out, 0)
    else
      let pair := if uFirst then row.u else row.v
      let stop := w / 16 * 16
      let chroma : Bool := if interleaved then stop ≤ pair.len else stop / 2 ≤ row.u.len ∧ stop / 2 ≤ row.v.len
      if stop = 0 ∨ row.y.len < stop ∨ out.length < stop ∨ ¬ chroma then some (out, 0)
      else do
        let out ← blocksFrom (block interleaved uFirst) (w / 16) 0 out
        some (out, stop)

/-- The architectures: the two that have a vectorised row, and every other. -/
inductive Arch where
  | neon
  | sse2
  | other
deriving DecidableEq, Repr

def rowVectorised (arch : Arch) (m : Memory) (row : Row) (l : Layout) (out : List Nat) (w : Nat) (c : Coefficients) :
    Option (List Nat × Nat) :=
  match arch with
  | .neon => rowBlocks (Neon.block m row c) row l out w
  | .sse2 => rowBlocks (Sse2.block m row c) row l out w
  | .other => some (out, 0)

/-- Where the blocks read below `stop`: a run of both planes, or one of each. -/
structure Covers (row : Row) (l : Layout) (stop : Nat) (interleaved uFirst : Bool) : Prop where
  yColInc : l.yColInc = 1
  horiz : l.horizSubsampling = 2
  y : stop ≤ row.y.len
  run : interleaved = true → l.uvColInc = 2 ∧
    (uFirst = true ∧ row.v.ptr = row.u.ptr + 1 ∧ stop ≤ row.u.len ∨
      uFirst = false ∧ row.u.ptr = row.v.ptr + 1 ∧ stop ≤ row.v.len)
  each : interleaved = false → l.uvColInc = 1 ∧ stop / 2 ≤ row.u.len ∧ stop / 2 ≤ row.v.len

/-- The samples a block is made of. -/
def lumaOf (m : Memory) (s : Slice) (col : Nat) : Fin 16 → UInt8 := fun i => m (s.ptr + (col + i))

def chromaOf (m : Memory) (s : Slice) (inc col : Nat) : Fin 8 → UInt8 := fun i => m (s.ptr + (col / 2 + i) * inc)

/-- A block of pixels, each from its samples. -/
def pixels (m : Memory) (row : Row) (l : Layout) (c : Coefficients) (col : Nat) : List Nat :=
  List.ofFn fun j : Fin 16 => pixel c (lumaOf m row.y col j) (chromaOf m row.u l.uvColInc col ⟨j / 2, by omega⟩)
    (chromaOf m row.v l.uvColInc col ⟨j / 2, by omega⟩)

section
variable {m : Memory} {row : Row} {l : Layout} {stop : Nat} {interleaved uFirst : Bool} {col : Nat}

theorem load_eq {s : Slice} {a n : Nat} (h : a + n ≤ s.len) : s.load m a n = some fun i : Fin n => m (s.ptr + (a + i)) := by
  simp [Slice.load, h]

theorem Covers.luma (h : Covers row l stop interleaved uFirst) (hcol : col + 16 ≤ stop) :
    row.y.load m col 16 = some (lumaOf m row.y col) :=
  load_eq (Nat.le_trans hcol h.y)

/-- A plane that is every other byte of a run from its first byte on, or from the next. -/
theorem chromaOf_run {s : Slice} {p k : Nat} (hp : s.ptr = p + k) (h2 : l.uvColInc = 2) (h16 : col % 16 = 0) :
    chromaOf m s l.uvColInc col = fun i : Fin 8 => m (p + (col + (2 * i + k))) := by
  funext i
  have ha : s.ptr + (col / 2 + i) * l.uvColInc = p + (col + (2 * i + k)) := by
    rw [hp, h2]
    omega
  exact congrArg m ha

theorem chromaOf_each {s : Slice} (h1 : l.uvColInc = 1) :
    chromaOf m s l.uvColInc col = fun i : Fin 8 => m (s.ptr + (col / 2 + i)) := by
  unfold chromaOf
  simp only [h1, Nat.mul_one]

theorem Neon.chroma_eq (h : Covers row l stop interleaved uFirst) (hcol : col + 16 ≤ stop) (h16 : col % 16 = 0) :
    Neon.chroma m row interleaved uFirst col =
      some (chromaOf m row.u l.uvColInc col, chromaOf m row.v l.uvColInc col) := by
  cases interleaved with
  | false =>
    obtain ⟨hinc, hu, hv⟩ := h.each rfl
    have lu : row.u.load m (col / 2) 8 = _ := load_eq (by omega)
    have lv : row.v.load m (col / 2) 8 = _ := load_eq (by omega)
    simp [Neon.chroma, lu, lv, chromaOf_each hinc]
  | true =>
    obtain ⟨hinc, ⟨rfl, hp, hl⟩ | ⟨rfl, hp, hl⟩⟩ := h.run rfl
    · have lp : row.u.load m col 16 = _ := load_eq (by omega)
      rw [chromaOf_run (s := row.u) (p := row.u.ptr) (k := 0) rfl hinc h16, chromaOf_run hp hinc h16]
      simp [Neon.chroma, lp]
    · have lp : row.v.load m col 16 = _ := load_eq (by omega)
      rw [chromaOf_run (s := row.v) (p := row.v.ptr) (k := 0) rfl hinc h16, chromaOf_run hp hinc h16]
      simp [Neon.chroma, lp]

theorem Neon.block_eq (bt709 fullRange : Bool) (h : Covers row l stop interleaved uFirst) (hcol : col + 16 ≤ stop)
    (h16 : col % 16 = 0) :
    Neon.block m row (coefficients bt709 fullRange) interleaved uFirst col =
      some (pixels m row l (coefficients bt709 fullRange) col) := by
  simp only [Neon.block, Neon.chroma_eq h hcol h16, h.luma hcol, Option.bind_eq_bind, Option.bind_some, pixels]
  congr 2
  funext j
  rw [Neon.words_eq_lane, Neon.lane_eq_pixel]

theorem Sse2.epi16_first (both : Sse2.M128) (i : Fin 8) :
    Sse2.epi16 (Sse2.andSi128 both (Sse2.set1Epi16 0xff)) i = (both ⟨2 * i, by omega⟩).toNat := by
  have h0 : 2 * i.val % 2 = 0 := by omega
  have h1 : (2 * i.val + 1) % 2 ≠ 0 := by omega
  have b0 : Sse2.byteOf 0xff = 0xff := rfl
  have b1 : Sse2.byteOf (0xff / 0x100) = 0 := rfl
  have hand : ∀ b : UInt8, b &&& 0xff = b := by
    intro b
    apply UInt8.toNat_inj.mp
    rw [UInt8.toNat_and]
    exact Nat.and_two_pow_sub_one_of_lt_two_pow b.toNat_lt
  have hlt := (both ⟨2 * i, by omega⟩).toNat_lt
  simp only [Sse2.epi16, Sse2.andSi128, Sse2.set1Epi16, Sse2.ofEpi16, h0, h1, if_true, if_false, b0, b1, hand,
    UInt8.and_zero]
  exact s16_eq (by simp) (by simp; omega)

theorem Sse2.epi16_second (both : Sse2.M128) (i : Fin 8) :
    Sse2.epi16 (Sse2.srliEpi16 both) i = (both ⟨2 * i + 1, by omega⟩).toNat := by
  have h0 : 2 * i.val % 2 = 0 := by omega
  have h1 : (2 * i.val + 1) % 2 ≠ 0 := by omega
  have hlt := (both ⟨2 * i + 1, by omega⟩).toNat_lt
  simp only [Sse2.epi16, Sse2.srliEpi16, h0, h1, dif_pos, dif_neg, not_false_eq_true]
  exact s16_eq (by simp) (by simp; omega)

theorem Sse2.loadlEpi64_eq {s : Slice} {a : Nat} (h : a + 8 ≤ s.len) :
    ∃ r, Sse2.loadlEpi64 m s a = some r ∧
      ∀ i, Sse2.epi16 (Sse2.unpackloEpi8 r Sse2.setzeroSi128) i = (m (s.ptr + (a + i))).toNat := by
  refine ⟨fun i => if h : i.val < 8 then m (s.ptr + (a + i)) else 0, by simp [Sse2.loadlEpi64, load_eq h], ?_⟩
  intro i
  have hlt := (m (s.ptr + (a + i))).toNat_lt
  have h8 : i.val < 8 := i.isLt
  rw [Sse2.epi16_unpackloEpi8]
  simp only [h8, dif_pos]
  exact s16_eq (by omega) (by omega)

/-- The two registers' lanes are the samples, whichever way they came. -/
theorem Sse2.chroma_eq (h : Covers row l stop interleaved uFirst) (hcol : col + 16 ≤ stop) (h16 : col % 16 = 0) :
    ∃ ub vb, Sse2.chroma m row interleaved uFirst col = some (ub, vb) ∧
      (∀ i, Sse2.epi16 ub i = (chromaOf m row.u l.uvColInc col i).toNat) ∧
      ∀ i, Sse2.epi16 vb i = (chromaOf m row.v l.uvColInc col i).toNat := by
  cases interleaved with
  | false =>
    obtain ⟨hinc, hu, hv⟩ := h.each rfl
    obtain ⟨ru, lu, eu⟩ := Sse2.loadlEpi64_eq (m := m) (s := row.u) (a := col / 2) (by omega)
    obtain ⟨rv, lv, ev⟩ := Sse2.loadlEpi64_eq (m := m) (s := row.v) (a := col / 2) (by omega)
    rw [chromaOf_each hinc, chromaOf_each hinc]
    exact ⟨_, _, by simp [Sse2.chroma, lu, lv], eu, ev⟩
  | true =>
    obtain ⟨hinc, ⟨rfl, hp, hl⟩ | ⟨rfl, hp, hl⟩⟩ := h.run rfl
    · have lp : row.u.load m col 16 = some fun i : Fin 16 => m (row.u.ptr + (col + i)) := load_eq (by omega)
      rw [chromaOf_run (s := row.u) (p := row.u.ptr) (k := 0) rfl hinc h16, chromaOf_run hp hinc h16]
      generalize hb : (fun i : Fin 16 => m (row.u.ptr + (col + i))) = both at lp
      refine ⟨Sse2.andSi128 both (Sse2.set1Epi16 0xff), Sse2.srliEpi16 both, by simp [Sse2.chroma, lp], ?_, ?_⟩
      · intro i
        rw [Sse2.epi16_first, ← hb]
        simp
      · intro i
        rw [Sse2.epi16_second, ← hb]
    · have lp : row.v.load m col 16 = some fun i : Fin 16 => m (row.v.ptr + (col + i)) := load_eq (by omega)
      rw [chromaOf_run (s := row.v) (p := row.v.ptr) (k := 0) rfl hinc h16, chromaOf_run hp hinc h16]
      generalize hb : (fun i : Fin 16 => m (row.v.ptr + (col + i))) = both at lp
      refine ⟨Sse2.srliEpi16 both, Sse2.andSi128 both (Sse2.set1Epi16 0xff), by simp [Sse2.chroma, lp], ?_, ?_⟩
      · intro i
        rw [Sse2.epi16_second, ← hb]
      · intro i
        rw [Sse2.epi16_first, ← hb]
        simp

theorem Sse2.block_eq (bt709 fullRange : Bool) (h : Covers row l stop interleaved uFirst) (hcol : col + 16 ≤ stop)
    (h16 : col % 16 = 0) :
    Sse2.block m row (coefficients bt709 fullRange) interleaved uFirst col =
      some (pixels m row l (coefficients bt709 fullRange) col) := by
  obtain ⟨ub, vb, hc, hu, hv⟩ := Sse2.chroma_eq (m := m) h hcol h16
  simp only [Sse2.block, hc, h.luma hcol, Option.bind_eq_bind, Option.bind_some, pixels]
  congr 2
  funext j
  rw [Sse2.words_eq_pixel bt709 fullRange _ ub vb _ _ hu hv]

theorem pixels_eq (c : Coefficients) (h : Covers row l stop interleaved uFirst) (h16 : col % 16 = 0) :
    pixels m row l c col = (List.range' col 16).map (pixelOf m row l c) := by
  apply List.ext_getElem (by simp [pixels])
  intro j hj _
  have hj' : j < 16 := by simpa [pixels] using hj
  have hd : (col + j) / 2 = col / 2 + j / 2 := by omega
  simp only [pixels, List.getElem_ofFn, List.getElem_map, List.getElem_range', lumaOf, chromaOf, pixelOf, h.horiz, h.yColInc,
    Nat.one_mul, Nat.mul_one, hd]

theorem blocksFrom_eq {f : Nat → Nat} {block : Nat → Option (List Nat)} :
    ∀ (n col : Nat) (out : List Nat), col + 16 * n ≤ out.length →
      (∀ i < n, block (col + 16 * i) = some ((List.range' (col + 16 * i) 16).map f)) →
      blocksFrom block n col out = some (out.take col ++ (List.range' col (16 * n)).map f ++ out.drop (col + 16 * n)) := by
  intro n
  induction n with
  | zero =>
    intro col out _ _
    simp [blocksFrom]
  | succ n ih =>
    intro col out hlen hb
    have h0 := hb 0 (by omega)
    rw [Nat.mul_zero, Nat.add_zero] at h0
    have hw : ((List.range' col 16).map f).length = 16 := by simp
    have hsplit : (List.range' col (16 * (n + 1))).map f =
        (List.range' col 16).map f ++ (List.range' (col + 16) (16 * n)).map f := by
      rw [← List.map_append, List.range'_append_1]
      congr 2
      omega
    generalize (List.range' col 16).map f = words at *
    have hput : (putBlock out col words).length = out.length := by
      simp only [putBlock, List.length_append, List.length_take, List.length_drop, hw]
      omega
    have hrest : ∀ i < n, block (col + 16 + 16 * i) = some ((List.range' (col + 16 + 16 * i) 16).map f) := by
      intro i hi
      have := hb (i + 1) (by omega)
      rwa [show col + 16 * (i + 1) = col + 16 + 16 * i by omega] at this
    have htake : (putBlock out col words).take (col + 16) = out.take col ++ words := by
      rw [putBlock, List.take_append_of_le_length, List.take_of_length_le]
      · simp only [List.length_append, List.length_take, hw]
        omega
      · simp only [List.length_append, List.length_take, hw]
        omega
    have hdrop : (putBlock out col words).drop (col + 16 + 16 * n) = out.drop (col + 16 * (n + 1)) := by
      rw [putBlock, List.drop_append, List.drop_eq_nil_of_le, List.nil_append, List.drop_drop]
      · congr 1
        simp only [List.length_append, List.length_take, hw]
        omega
      · simp only [List.length_append, List.length_take, hw]
        omega
    rw [blocksFrom, h0, Option.bind_eq_bind, Option.bind_some, ih (col + 16) (putBlock out col words) (by omega) hrest, htake,
      hdrop, hsplit]
    simp only [List.append_assoc]

/-- What a vectorised row does: nothing, or every pixel below where it stopped. -/
theorem rowBlocks_cases {block : Bool → Bool → Nat → Option (List Nat)} {c : Coefficients} {out : List Nat} {w : Nat}
    (hb : ∀ {interleaved uFirst col}, Covers row l (w / 16 * 16) interleaved uFirst → col + 16 ≤ w / 16 * 16 →
      col % 16 = 0 → block interleaved uFirst col = some (pixels m row l c col)) :
    rowBlocks block row l out w = some (out, 0) ∨
      l.horizSubsampling = 2 ∧ w / 16 * 16 ≤ out.length ∧
        rowBlocks block row l out w =
          some ((List.range' 0 (w / 16 * 16)).map (pixelOf m row l c) ++ out.drop (w / 16 * 16), w / 16 * 16) := by
  unfold rowBlocks
  dsimp only
  generalize hu : decide (row.v.ptr = row.u.ptr + 1) = uFirst
  generalize hi : decide (l.uvColInc = 2 ∧ (uFirst = true ∨ row.u.ptr = row.v.ptr + 1)) = interleaved
  by_cases hl : l.yColInc ≠ 1 ∨ l.horizSubsampling ≠ 2
  · exact Or.inl (if_pos hl)
  rw [if_neg hl]
  by_cases hn : l.uvColInc ≠ 1 ∧ ¬ interleaved = true
  · exact Or.inl (if_pos hn)
  rw [if_neg hn]
  generalize hch : (if interleaved = true then decide (w / 16 * 16 ≤ (if uFirst = true then row.u else row.v).len)
    else decide (w / 16 * 16 / 2 ≤ row.u.len ∧ w / 16 * 16 / 2 ≤ row.v.len)) = chroma
  by_cases hc : w / 16 * 16 = 0 ∨ row.y.len < w / 16 * 16 ∨ out.length < w / 16 * 16 ∨ ¬ chroma = true
  · exact Or.inl (if_pos hc)
  rw [if_neg hc]
  right
  have hchroma : chroma = true := by
    simp only [not_or, not_not] at hc
    exact hc.2.2.2
  rw [hchroma] at hch
  have hcov : Covers row l (w / 16 * 16) interleaved uFirst := by
    refine ⟨by omega, by omega, by omega, ?_, ?_⟩
    · rintro rfl
      simp only [decide_eq_true_eq] at hi
      refine ⟨hi.1, ?_⟩
      cases uFirst with
      | true =>
        simp only [decide_eq_true_eq] at hu
        simp only [if_true, decide_eq_true_eq] at hch
        exact Or.inl ⟨rfl, hu, hch⟩
      | false =>
        simp only [Bool.false_eq_true, false_or] at hi
        simp only [if_true, Bool.false_eq_true, if_false, decide_eq_true_eq] at hch
        exact Or.inr ⟨rfl, hi.2, hch⟩
    · rintro rfl
      simp only [Bool.false_eq_true, if_false, decide_eq_true_eq] at hch
      simp only [Bool.false_eq_true, not_false_eq_true, and_true, not_not] at hn
      exact ⟨hn, hch⟩
  refine ⟨hcov.horiz, by omega, ?_⟩
  have hblock : ∀ i < w / 16, block interleaved uFirst (0 + 16 * i) =
      some ((List.range' (0 + 16 * i) 16).map (pixelOf m row l c)) := by
    intro i hi
    rw [hb hcov (by omega) (by omega), pixels_eq c hcov (by omega)]
  rw [blocksFrom_eq (w / 16) 0 out (by omega) hblock]
  simp only [Option.bind_eq_bind, Option.bind_some, List.take_zero, List.nil_append, Nat.zero_add, Nat.mul_comm 16]

theorem rowVectorised_cases (arch : Arch) (m : Memory) (row : Row) (l : Layout) (out : List Nat) (w : Nat)
    (bt709 fullRange : Bool) :
    rowVectorised arch m row l out w (coefficients bt709 fullRange) = some (out, 0) ∨
      l.horizSubsampling = 2 ∧ w / 16 * 16 ≤ out.length ∧
        rowVectorised arch m row l out w (coefficients bt709 fullRange) =
          some ((List.range' 0 (w / 16 * 16)).map (pixelOf m row l (coefficients bt709 fullRange)) ++
            out.drop (w / 16 * 16), w / 16 * 16) := by
  cases arch with
  | neon => exact rowBlocks_cases fun h hcol h16 => Neon.block_eq bt709 fullRange h hcol h16
  | sse2 => exact rowBlocks_cases fun h hcol h16 => Sse2.block_eq bt709 fullRange h hcol h16
  | other => exact Or.inl rfl

end

/-- Where a row's pixels are in its slices, the scalar loop over what the vectorised row left
ends where it ends from the start. -/
theorem rowScalar_resumes (arch : Arch) {m : Memory} {row : Row} {l : Layout} {out : List Nat} {w : Nat}
    (bt709 fullRange : Bool) (h : (rowScalar m row l out 0 w (coefficients bt709 fullRange)).isSome) :
    ∃ vector done, rowVectorised arch m row l out w (coefficients bt709 fullRange) = some (vector, done) ∧
      rowScalar m row l vector done w (coefficients bt709 fullRange) =
        rowScalar m row l out 0 w (coefficients bt709 fullRange) := by
  generalize hc : coefficients bt709 fullRange = c at *
  obtain hv | ⟨h2, hlen, hv⟩ := hc ▸ rowVectorised_cases arch m row l out w bt709 fullRange
  · exact ⟨out, 0, hv, rfl⟩
  refine ⟨_, _, hv, ?_⟩
  have hs : 0 < l.horizSubsampling := by omega
  have hholds := (rowScalar_isSome_iff hs (Nat.zero_mod _)).mp h
  rw [rowScalar_eq_some hs (Nat.zero_mod _) hholds]
  generalize hd : w / 16 * 16 = done at *
  have hlen' : ((List.range' 0 done).map (pixelOf m row l c) ++ out.drop done).length = out.length := by
    simp
    omega
  rw [rowScalar_eq_some hs (by rw [h2]; omega) (by rw [hlen']; exact fun k _ hk => hholds k (Nat.zero_le _) hk), hlen']
  have hsplit : (List.range' 0 (min w out.length - 0)).map (pixelOf m row l c) =
      (List.range' 0 done).map (pixelOf m row l c) ++ (List.range' done (min w out.length - done)).map (pixelOf m row l c) := by
    rw [← List.map_append]
    congr 1
    have := List.range'_append_1 (s := 0) (m := done) (n := min w out.length - done)
    rw [Nat.zero_add] at this
    rw [this]
    congr 1
    omega
  have htake : ((List.range' 0 done).map (pixelOf m row l c) ++ out.drop done).take done =
      (List.range' 0 done).map (pixelOf m row l c) := by
    rw [List.take_append_of_le_length (by simp), List.take_of_length_le (by simp)]
  have hdrop : ((List.range' 0 done).map (pixelOf m row l c) ++ out.drop done).drop (done + (min w out.length - done)) =
      out.drop (0 + (min w out.length - 0)) := by
    rw [List.drop_append, List.drop_eq_nil_of_le (by simp), List.nil_append, List.drop_drop]
    congr 1
    simp
    omega
  rw [hsplit, htake, hdrop, List.take_zero, List.nil_append]

/-- Wherever the scalar loop converts a row, the vectorised one does what it does and the
scalar loop from there on gives the same words. -/
theorem rowVectorised_then_scalar (arch : Arch) (m : Memory) (row : Row) (l : Layout) (out : List Nat) (w : Nat)
    (bt709 fullRange : Bool) (scalar : List Nat)
    (h : rowScalar m row l out 0 w (coefficients bt709 fullRange) = some scalar) :
    ∃ vector done, rowVectorised arch m row l out w (coefficients bt709 fullRange) = some (vector, done) ∧
      rowScalar m row l vector done w (coefficients bt709 fullRange) = some scalar := by
  obtain ⟨vector, done, hv, hs⟩ := rowScalar_resumes arch bt709 fullRange (Option.isSome_of_eq_some h)
  exact ⟨vector, done, hv, hs.trans h⟩

/-- Seventeen pixels of NV21: a block, and a pixel left to the scalar loop. -/
theorem rowVectorised_then_scalar_nv21 :
    ∃ scalar, rowScalar (fun i => UInt8.ofNat (7 * i)) ⟨⟨0, 17⟩, ⟨18, 17⟩, ⟨17, 18⟩⟩ ⟨1, 2, 2⟩ (List.replicate 17 0) 0 17
        (coefficients true false) = some scalar ∧
      ∃ vector done, rowVectorised .sse2 (fun i => UInt8.ofNat (7 * i)) ⟨⟨0, 17⟩, ⟨18, 17⟩, ⟨17, 18⟩⟩ ⟨1, 2, 2⟩
          (List.replicate 17 0) 17 (coefficients true false) = some (vector, done) ∧
        rowScalar (fun i => UInt8.ofNat (7 * i)) ⟨⟨0, 17⟩, ⟨18, 17⟩, ⟨17, 18⟩⟩ ⟨1, 2, 2⟩ vector done 17
          (coefficients true false) = some scalar := by
  have h : (rowScalar (fun i => UInt8.ofNat (7 * i)) ⟨⟨0, 17⟩, ⟨18, 17⟩, ⟨17, 18⟩⟩ ⟨1, 2, 2⟩ (List.replicate 17 0) 0 17
      (coefficients true false)).isSome := by
    decide +kernel
  obtain ⟨scalar, hs⟩ := Option.isSome_iff_exists.mp h
  exact ⟨scalar, hs, rowVectorised_then_scalar .sse2 _ _ _ _ _ true false scalar hs⟩

end Vento.Video
