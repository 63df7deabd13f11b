import Mathlib.Algebra.Ring.Nat
import Vento.Control.RelativeMotion
import Vento.Rfb.Input
import Vento.Rfb.Proto
/-!
# Relative motion on the wire

The bytes of a `PointerEvent` of `rfb/src/client.rs`, and how a server in relative mode
reads them: the coordinates less the bias, and the buttons put back together. With it
`relative_motion`, from the finger to the wire.
-/

namespace Vento.Rfb

open Vento.Lib Java

/-- `pointer_event`. -/
def PointerEvent.encode (e : PointerEvent) : List UInt8 :=
  5 :: e.buttons :: (toBeBytes 2 e.x.toNat ++ toBeBytes 2 e.y.toNat ++ e.high.toList)

/-- The buttons, of the first byte and of a second one where the first is marked. -/
def readButtons (extended : Bool) (b : UInt8) : List UInt8 → Option UInt16
  | [] => if extended ∧ b &&& 0x80 ≠ 0 then none else some b.toUInt16
  | [high] => if extended ∧ b &&& 0x80 ≠ 0 then some (high.toUInt16 <<< 7 ||| (b.toUInt16 &&& 0x7f)) else none
  | _ => none

/-- What a server in relative mode reads: the motion and the buttons. `extended` is that it has offered nine. -/
def readRelative (extended : Bool) : List UInt8 → Option ((Int × Int) × UInt16)
  | 5 :: b :: x1 :: x0 :: y1 :: y0 :: rest =>
    (readButtons extended b rest).map fun mask => ((fromBeBytes [x1, x0] - 0x7fff, fromBeBytes [y1, y0] - 0x7fff), mask)
  | _ => none

/-- The buttons that a message has room for. -/
def room (extended : Bool) : UInt16 := if extended then 0x7fff else 0xff

theorem toNat_low (n : UInt16) (k : Nat) (m : UInt16) (hm : m.toNat = 2 ^ k - 1) : (n &&& m).toNat = n.toNat % 2 ^ k := by
  rw [UInt16.toNat_and, hm, Nat.and_two_pow_sub_one_eq_mod]

/-- A byte with its highest bit set, less that bit. -/
theorem marked_low (a : Nat) : (a % 128 ||| 128) % 128 = a % 128 := by
  have h : (a % 128 ||| 128) % 2 ^ 7 = (a % 128) % 2 ^ 7 ||| 128 % 2 ^ 7 := Nat.or_mod_two_pow
  simpa using h

theorem one_byte (mask : UInt16) : (mask &&& 0xff).toUInt8.toUInt16 = mask &&& 0xff := by
  apply UInt16.toNat_inj.1
  rw [UInt8.toNat_toUInt16, UInt16.toNat_toUInt8, toNat_low _ 8 _ (by decide), Nat.mod_mod]

theorem two_bytes (mask : UInt16) :
    (((mask >>> 7) &&& 0xff).toUInt8.toUInt16 <<< 7) ||| (((mask &&& 0x7f).toUInt8 ||| 0x80).toUInt16 &&& 0x7f) =
      mask &&& 0x7fff := by
  apply UInt16.toNat_inj.1
  have hn := mask.toNat_lt
  have hhigh : (((mask >>> 7) &&& 0xff).toUInt8.toUInt16 <<< 7).toNat = ((mask.toNat / 128) % 256) <<< 7 := by
    rw [UInt16.toNat_shiftLeft, UInt8.toNat_toUInt16, UInt16.toNat_toUInt8, UInt16.toNat_and, UInt16.toNat_shiftRight]
    have h1 : (7 : UInt16).toNat % 16 = 7 := by decide
    have h2 : (0xff : UInt16).toNat = 2 ^ 8 - 1 := by decide
    rw [h1, h2, Nat.and_two_pow_sub_one_eq_mod, Nat.shiftRight_eq_div_pow, Nat.shiftLeft_eq]
    omega
  have hlow : (((mask &&& 0x7f).toUInt8 ||| 0x80).toUInt16 &&& 0x7f).toNat = mask.toNat % 128 := by
    rw [toNat_low _ 7 _ (by decide), UInt8.toNat_toUInt16, UInt8.toNat_or, UInt16.toNat_toUInt8,
      toNat_low _ 7 _ (by decide)]
    have h1 : (0x80 : UInt8).toNat = 128 := by decide
    rw [h1, show mask.toNat % 2 ^ 7 % 2 ^ 8 = mask.toNat % 128 by omega]
    exact marked_low _
  rw [UInt16.toNat_or, hhigh, hlow, toNat_low _ 15 _ (by decide), ← Nat.shiftLeft_add_eq_or_of_lt (by omega),
    Nat.shiftLeft_eq]
  omega

theorem marker (b : UInt8) : (b ||| 0x80) &&& 0x80 ≠ 0 := by
  have h : (b ||| 0x80) &&& 0x80 = 0x80 := by
    apply UInt8.toBitVec_inj.1
    ext i hi
    simp +contextual
  rw [h]
  decide

theorem bias_toNat {delta : Int32} (h : delta.toInt < 2 ^ 31 - 0x7fff) :
    ((bias delta).toNat : Int) - 0x7fff = clamp delta.toInt (-0x7fff) 0x8000 := by
  have hlo := Int32.le_toInt delta
  have hadd : (0x7fff + delta).toInt = 0x7fff + delta.toInt := by
    have hc : (0x7fff : Int32).toInt = 0x7fff := by decide
    rw [toInt_add (by omega) (by omega), hc]
  unfold bias clamp
  rw [hadd, UInt16.toNat_ofNat']
  split
  · omega
  · split <;> omega

/-- The two bytes of a field are read back. -/
theorem field_bytes (n : UInt16) : ∃ a b, toBeBytes 2 n.toNat = [a, b] ∧ fromBeBytes [a, b] = n.toNat := by
  refine ⟨UInt8.ofNat (n.toNat / 256), UInt8.ofNat n.toNat, rfl, ?_⟩
  exact fromBeBytes_toBeBytes (k := 2) n.toNat_lt

/-- What a server reads of a message, wherever it puts the pointer. -/
theorem readRelative_encode (x y mask : UInt16) (extended : Bool) :
    readRelative extended (pointerEvent x y mask extended).encode =
      some (((x.toNat : Int) - 0x7fff, (y.toNat : Int) - 0x7fff), mask &&& room extended) := by
  obtain ⟨x1, x0, hx, hx'⟩ := field_bytes x
  obtain ⟨y1, y0, hy, hy'⟩ := field_bytes y
  unfold PointerEvent.encode pointerEvent
  simp only
  rw [hx, hy]
  cases extended with
  | false =>
    have hone : readButtons false (mask &&& 0xff).toUInt8 [] = some (mask &&& 0xff) := by
      rw [readButtons, if_neg (fun h => Bool.false_ne_true h.1), one_byte]
    show (readButtons false (mask &&& 0xff).toUInt8 []).map _ = _
    rw [hone, hx', hy']
    rfl
  | true =>
    have htwo : readButtons true ((mask &&& 0x7f).toUInt8 ||| 0x80) [((mask >>> 7) &&& 0xff).toUInt8] =
        some (mask &&& 0x7fff) := by
      rw [readButtons, if_pos ⟨rfl, marker _⟩, two_bytes]
    show (readButtons true ((mask &&& 0x7f).toUInt8 ||| 0x80) [((mask >>> 7) &&& 0xff).toUInt8]).map _ = _
    rw [htwo, hx', hy']
    rfl

open Vento.Control CursorController in
/-- Motion is conserved from the finger to the wire. What is sent and what is still owed since the far end has owned the
cursor is the motion over the scale; a send leaves less than one unit of what a cast to an `int` does not cut short; and
a server reads the clamped motion and the buttons there is room for. -/
theorem relative_motion :
    (∀ m m' : Motion, ∀ acts, m.cursor.relative = false → (∀ i ∈ acts, i.2 ≠ .setRelative false) →
      run Motion.step (m.setRelative true) acts = some m' →
      ∃ sent, m'.deltas = m.deltas ++ sent ∧
        Motion.total sent + (m'.owedX, m'.owedY) = (m.setRelative true).travelled acts) ∧
    (∀ m m' : Motion, ∀ i d, m.step i = some m' → m'.deltas = m.deltas ++ [d] →
      (|m'.owedX| < 1 ↔ -2 ^ 31 - 1 < m'.owedX + float d.1 ∧ m'.owedX + float d.1 < 2 ^ 31) ∧
      (|m'.owedY| < 1 ↔ -2 ^ 31 - 1 < m'.owedY + float d.2 ∧ m'.owedY + float d.2 < 2 ^ 31)) ∧
    (∀ dx dy : Int32, ∀ mask extended, dx.toInt < 2 ^ 31 - 0x7fff → dy.toInt < 2 ^ 31 - 0x7fff →
      readRelative extended (pointerEvent (bias dx) (bias dy) mask extended).encode =
        some ((clamp dx.toInt (-0x7fff) 0x8000, clamp dy.toInt (-0x7fff) 0x8000), mask &&& room extended)) := by
  refine ⟨fun m m' acts hm hstay h => ?_, fun m m' i d hstep hd => ?_, fun dx dy mask extended hdx hdy => ?_⟩
  · have henter : m.setRelative true = { m with cursor := m.cursor.setRelative true, owedX := 0, owedY := 0 } :=
      if_neg (by rw [hm]; decide)
    have hrel : (m.setRelative true).cursor.relative = true := by
      rw [henter]
      exact congrArg State.relative (if_neg (by rw [hm]; decide))
    obtain ⟨sent, hsent, hsum⟩ := Motion.run_conserves hrel hstay h
    refine ⟨sent, by rw [hsent, henter], ?_⟩
    rw [hsum, henter]
    exact zero_add _
  · obtain ⟨x, y, hpays, -⟩ := Motion.step_pays hstep
    rcases hpays with ⟨hsame, -⟩ | ⟨hsent, hx, hy⟩
    · rw [hsame] at hd
      exact absurd hd (by simp)
    · rw [hsent] at hd
      obtain rfl : (castInt x, castInt y) = d := by simpa using hd
      rw [hx, hy, sub_add_cancel, sub_add_cancel]
      exact ⟨abs_sub_castInt_lt_iff x, abs_sub_castInt_lt_iff y⟩
  · rw [readRelative_encode, bias_toNat hdx, bias_toNat hdy]

open Vento.Control CursorController in
theorem relative_motion_twice :
    ∃ m' sent, run Motion.step ((Motion.init (.new 1) (0, 0)).setRelative true)
        [(⟨false, false⟩, .mouseMove (3 / 5, 0)), (⟨false, false⟩, .mouseMove (3 / 5, 0))] = some m' ∧
      m'.deltas = [] ++ sent ∧
      Motion.total sent + (m'.owedX, m'.owedY) = ((Motion.init (.new 1) (0, 0)).setRelative true).travelled
        [(⟨false, false⟩, .mouseMove (3 / 5, 0)), (⟨false, false⟩, .mouseMove (3 / 5, 0))] := by
  have hstay : ∀ i ∈ [((⟨false, false⟩ : Config), Act.mouseMove (3 / 5, 0)), (⟨false, false⟩, .mouseMove (3 / 5, 0))],
      i.2 ≠ (.setRelative false : Act Viewport (ℚ × ℚ)) := by
    intro i hi
    simp only [List.mem_cons, List.not_mem_nil, or_false, or_self] at hi
    rw [hi]
    nofun
  obtain ⟨sent, hd, hsum⟩ := relative_motion.1 (Motion.init (.new 1) (0, 0)) _ _ rfl hstay rfl
  exact ⟨_, sent, rfl, hd, hsum⟩

/-- The ninth button is not sent where the server has not offered it. -/
theorem relative_ninth :
    readRelative false (pointerEvent (bias 1) (bias 0) 0x100 false).encode = some ((1, 0), 0) := by decide

end Vento.Rfb
