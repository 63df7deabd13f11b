import Vento.Rfb.Zlib
/-!
# The extended clipboard

`rfb/src/clipboard.rs`: UTF-8 both ways inside the two cut-text messages, which
have a negative length then; and the line ends of `runtime/src/text.rs`. Texts
have LF here and CRLF on the wire.
-/

namespace Vento.Runtime

open Vento.Rfb

/-- `replace("\r\n", "\n")`. -/
def dropCr : Text → Text
  | '\r' :: '\n' :: cs => '\n' :: dropCr cs
  | c :: cs => c :: dropCr cs
  | [] => []

/-- CRLF, and a lone CR, to LF. -/
def toLf (text : Text) : Text := (dropCr text).map fun c => if c = '\r' then '\n' else c

/-- Every line end, whichever it was, to CRLF. -/
def toCrlf (text : Text) : Text := (toLf text).flatMap fun c => if c = '\n' then ['\r', '\n'] else [c]

end Vento.Runtime

namespace Vento.Rfb.Clipboard

open Vento.Lib Vento.Runtime

def utf8 : UInt32 := (1 : UInt32) <<< 0
def formatMask : UInt32 := 0x0000ffff

def caps : UInt32 := (1 : UInt32) <<< 24
def request : UInt32 := (1 : UInt32) <<< 25
def peek : UInt32 := (1 : UInt32) <<< 26
def notify : UInt32 := (1 : UInt32) <<< 27
def provide : UInt32 := (1 : UInt32) <<< 28
def actionMask : UInt32 := 0xff000000

/-- One extended clipboard message from the server. -/
inductive Message where
  /-- Its action bits, and the most text it takes unrequested. -/
  | caps (flags : UInt32) (utf8Size : Option Nat)
  | request (formats : UInt32)
  | peek
  | notify (formats : UInt32)
  /-- Its text, or none that this end accepts. -/
  | provide (text : Option Text)
deriving DecidableEq, Repr

/-- The sizes still to come and the text's, past the format of `bit`. -/
def capsSize (flags : UInt32) (s : List Nat × Option Nat) (bit : Nat) : Except String (List Nat × Option Nat) :=
  if flags &&& (1 <<< UInt32.ofNat bit) ≠ 0 then
    match s.1 with
    | [] => .error "extended clipboard caps without their sizes"
    | size :: sizes => .ok (sizes, if bit = 0 then some size else s.2)
  else .ok s

/-- One size for each format named, in bit order; text is bit 0. -/
def capsSizes (flags : UInt32) (sizes : List Nat) : Except String (Option Nat) :=
  (·.2) <$> (List.range 16).foldlM (capsSize flags) (sizes, none)

/-- `std::str::from_utf8`. -/
def fromUtf8 (bs : List UInt8) : Option Text := (String.fromUTF8? ⟨bs.toArray⟩).map String.toList

/-- The text from a provide: inflated, its length read, cut at its terminating
NUL, and refused unless it is UTF-8. -/
def providedText (z : Flate) (flags : UInt32) (deflated : List UInt8) (max : Nat) : Except Failure (Option Text) :=
  if flags &&& utf8 = 0 then .ok none
  else
    match z.inflate z.new deflated (max + 8) with
    | .error (.error _) => .ok none
    | .error f => .error f
    | .ok (_, inflated) =>
      if inflated.length < 4 then .ok none
      else
        let length := fromBeBytes (inflated.take 4)
        if length > max + 1 then .ok none
        else if inflated.length < 4 + length then .ok none
        else
          let text := ((inflated.drop 4).take length).takeWhile (· ≠ 0)
          .ok ((fromUtf8 text).map toLf)

/-- Of inflating's failures only those that are no `Error` get through: the text
is as good as missing otherwise. -/
theorem providedText_error {z : Flate} {flags : UInt32} {deflated : List UInt8} {max : Nat} {f : Failure}
    (h : providedText z flags deflated max = .error f) :
    z.inflate z.new deflated (max + 8) = .error f ∧ ∀ e, f ≠ .error e := by
  unfold providedText at h
  split at h
  · cases h
  · split at h
    · cases h
    · rename_i hnot hinflate
      cases h
      exact ⟨hinflate, fun e he => hnot e he⟩
    · simp only at h
      repeat' split at h
      all_goals cases h

/-- One message's body, whole: everything after the length. -/
def parse (z : Flate) (body : List UInt8) (max : Nat) : Except Failure Message :=
  if body.length < 4 then .error (.error (.protocol "an extended clipboard message without its flags"))
  else
    let flags := UInt32.ofNat (fromBeBytes (body.take 4))
    let rest := body.drop 4
    if flags &&& caps ≠ 0 then
      match capsSizes flags (words rest) with
      | .error e => .error (.error (.protocol e))
      | .ok utf8Size => .ok (.caps flags utf8Size)
    else
      let action := flags &&& actionMask
      if action = provide then .provide <$> providedText z flags rest max
      else if action = request then .ok (.request (flags &&& formatMask))
      else if action = peek then .ok .peek
      else if action = notify then .ok (.notify (flags &&& formatMask))
      else
        let hex := String.ofList (Nat.toDigits 16 action.toNat)
        .error (.error (.protocol s!"extended clipboard action 0x{hex}"))

theorem parse_caps {z : Flate} {body : List UInt8} {max : Nat} {flags : UInt32} {size : Option Nat}
    (h : parse z body max = .ok (.caps flags size)) : flags &&& caps ≠ 0 := by
  unfold parse at h
  split at h
  · cases h
  · simp only at h
    split at h
    · rename_i hcaps
      split at h
      · cases h
      · cases h
        exact hcaps
    · split at h
      · cases htext : providedText z (UInt32.ofNat (fromBeBytes (body.take 4))) (body.drop 4) max with
        | error f =>
          rw [htext] at h
          cases h
        | ok text =>
          rw [htext] at h
          cases h
      · repeat' split at h
        all_goals cases h

/-! ## Messages to the server -/

/-- The header with the negative length that marks it extended, the flags, and
`payload`. -/
def message (flags : UInt32) (payload : List UInt8) : List UInt8 :=
  6 :: 0 :: 0 :: 0 :: (toBeBytes 4 (ofI32 (-(4 + payload.length))) ++ (toBeBytes 4 flags.toNat ++ payload))

def capsMessage : List UInt8 :=
  message (utf8 ||| caps ||| request ||| peek ||| notify ||| provide) (toBeBytes 4 0)

def requestMessage : List UInt8 := message (request ||| utf8) []

def notifyMessage (available : Bool) : List UInt8 := message (notify ||| if available then utf8 else 0) []

/-- The text a provide carries: CRLF line ends and a terminating NUL. -/
def wireText (text : Text) : List UInt8 := (String.ofList (toCrlf text)).toUTF8.data.toList ++ [0]

/-- A provide of `wire`: its length and its bytes in a zlib stream of their own. -/
def provideMessage (z : Flate) (wire : List UInt8) : List UInt8 :=
  message (provide ||| utf8) (z.compress (toBeBytes 4 wire.length ++ wire))

/-- A plain `ClientCutText`. -/
def clientCutText (text : Text) : List UInt8 :=
  6 :: 0 :: 0 :: 0 :: (toBeBytes 4 (toLatin1 text).length ++ toLatin1 text)

/-- Our text in the form the server accepts. -/
def localText (z : Flate) (server : UInt32) (text : Text) : List UInt8 :=
  if server &&& provide ≠ 0 then provideMessage z (wireText text) else clientCutText text

end Vento.Rfb.Clipboard
