import Vento.Rfb.Clipboard
import Vento.Rfb.Framebuffer
import Vento.Rfb.ZrleTiles
/-!
# The read loop

The protocol thread of `rfb/src/client.rs` from `ServerInit` on: `read_loop`,
`framebuffer_update`, `server_cut_text`. A function takes the session's shared
state and gives it back; where it fails, it fails with the state as it was left.

What the UI thread may change meanwhile (`focused`, `view_only`, the announced
text) decides only what is queued for the server and delivered to the handler,
never what is read or drawn. The line speed, which is a measurement of time, is
left out.
-/

namespace Vento.Rfb

open Vento.Lib Parser

/-- One screen of a desktop's layout. -/
structure Screen where
  id : Nat
  x : Nat
  y : Nat
  width : Nat
  height : Nat
  flags : Nat
deriving DecidableEq, Repr

/-- A call of the handler. -/
inductive Event where
  | connected (width height : Nat)
  | frameEnd
  | bell
  | clipboard (text : Text)
  | desktopSize (width height : Nat)
  | cursor (pixels : List UInt32) (w h : Nat) (x y : Nat)
  | pointerMode (relative : Bool)
  | damaged (x y w h : Nat)
deriving DecidableEq, Repr

/-- The extended clipboard's state: the server's capabilities, and the text this
end has announced and not yet been asked for. -/
structure Clip where
  server : UInt32
  serverUtf8Size : Nat
  localText : Option Text
deriving DecidableEq, Repr

/-- The session's state, with the zlib stream, what is queued for the server and
what the handler was told. -/
structure Shared (z : Flate) where
  framebuffer : Framebuffer
  zlib : z.State
  requested : Bool
  running : Bool
  focused : Bool
  viewOnly : Bool
  extendedButtons : Bool
  relativePointer : Bool
  canResize : Bool
  screens : List Screen
  clip : Clip
  encoding : String
  desktopName : Text
  out : List (List UInt8)
  events : List Event

/-- Reading from the server; a failure comes with the state it left. -/
abbrev Run (z : Flate) := Parser (Failure × Shared z) UInt8

namespace Shared

variable {z : Flate}

/-- `Client::new`. -/
def new (z : Flate) : Shared z where
  framebuffer := .new
  zlib := z.new
  requested := false
  running := false
  focused := true
  viewOnly := false
  extendedButtons := false
  relativePointer := false
  canResize := false
  screens := []
  clip := ⟨0, 0, none⟩
  encoding := ""
  desktopName := []
  out := []
  events := []

def send (sh : Shared z) (msg : List UInt8) : Shared z := { sh with out := sh.out ++ [msg] }

def tell (sh : Shared z) (e : Event) : Shared z := { sh with events := sh.events ++ [e] }

def fail {α : Type} (sh : Shared z) (f : Failure) : Run z α := Parser.fail (f, sh)

@[simp]
theorem tell_framebuffer (sh : Shared z) (e : Event) : (sh.tell e).framebuffer = sh.framebuffer := rfl

@[simp]
theorem tell_zlib (sh : Shared z) (e : Event) : (sh.tell e).zlib = sh.zlib := rfl

/-- Reads, in the state `sh`. -/
def reading {α : Type} (sh : Shared z) (p : Reader α) : Run z α := fun bs =>
  match p bs with
  | .ok r => .ok r
  | .error f => .error (f, sh)

theorem parses_reading {α : Type} {sh : Shared z} {p : Reader α} {bs : List UInt8} {a : α} (h : Parses p bs a) :
    Parses (sh.reading p) bs a := by
  intro rest
  rw [reading, h rest]

/-- A checked operation, in the state `sh`. -/
def checked {α : Type} (sh : Shared z) : Option α → Run z α
  | some a => pure a
  | none => sh.fail .panic

/-! ## Requests -/

def updateRequest (incremental : Bool) (w h : Nat) : List UInt8 :=
  3 :: (if incremental then 1 else 0) :: (toBeBytes 2 0 ++ (toBeBytes 2 0 ++ (toBeBytes 2 w ++ toBeBytes 2 h)))

/-- Requests the changed areas, unless a request is outstanding. -/
def requestUpdate (sh : Shared z) : Shared z :=
  if sh.requested || !sh.running then sh
  else { sh with requested := true }.send (updateRequest true sh.framebuffer.width sh.framebuffer.height)

/-- Requests the whole desktop. -/
def requestUpdateFull (sh : Shared z) : Shared z :=
  { sh with requested := true }.send (updateRequest false sh.framebuffer.width sh.framebuffer.height)

@[simp]
theorem requestUpdate_framebuffer (sh : Shared z) : sh.requestUpdate.framebuffer = sh.framebuffer := by
  unfold requestUpdate
  split <;> rfl

@[simp]
theorem requestUpdate_zlib (sh : Shared z) : sh.requestUpdate.zlib = sh.zlib := by
  unfold requestUpdate
  split <;> rfl

/-! ## Desktop sizes -/

/-- A desktop size within the limit. -/
def checkDesktop (sh : Shared z) (width height : Nat) : Run z Unit :=
  if width * height > maxDesktopPixels then sh.fail (.error (.protocol s!"desktop of {width}x{height}"))
  else pure ()

/-- The new size of the desktop, whose pixels are requested again. -/
def resize (sh : Shared z) (w h : Nat) : Shared z :=
  ({ sh with framebuffer := sh.framebuffer.resize w h }.tell (.desktopSize w h)).requestUpdateFull

/-- The screen list inside an `ExtendedDesktopSize` rectangle. -/
def screenLayout : Reader (List Screen) := do
  let count ← u8
  skip 3
  repeatM count.toNat (fun screens => do
    let id ← u32
    let x ← u16
    let y ← u16
    let width ← u16
    let height ← u16
    let flags ← u32
    return screens ++ [⟨id, x, y, width, height, flags⟩]) []

/-! ## Rectangles -/

def encRaw : Int := 0
def encCopyRect : Int := 1
def encRre : Int := 2
def encHextile : Int := 5
def encZrle : Int := 16
def encCursor : Int := -239
def encDesktopSize : Int := -223
def encLastRect : Int := -224
def encExtendedMouseButtons : Int := -316
def encPointerTypeChange : Int := -257
def encExtendedDesktopSize : Int := -308

def resizeReasonClient : Nat := 1
def resizeResultSuccess : Nat := 0

def isPseudo (encoding : Int) : Bool :=
  !(encoding = encRaw || encoding = encCopyRect || encoding = encRre || encoding = encHextile || encoding = encZrle)

/-- The encoding's name for the connection panel. -/
def encodingName (encoding : Int) : String :=
  if encoding = encRaw then "Raw"
  else if encoding = encCopyRect then "CopyRect"
  else if encoding = encRre then "RRE"
  else if encoding = encHextile then "Hextile"
  else if encoding = encZrle then "ZRLE"
  else "unknown"

/-- Every pixel rectangle lies in the desktop. -/
def checkInside (sh : Shared z) (r : Rect) (encoding : Int) : Run z Unit :=
  let fb := sh.framebuffer
  if !isPseudo encoding && (r.x + r.w > fb.width || r.y + r.h > fb.height) then
    sh.fail (.error (.protocol s!"rectangle {r.w}x{r.h}+{r.x}+{r.y} outside the {fb.width}x{fb.height} desktop"))
  else pure ()

/-- Drawing is done: the panel and the handler learn of it. -/
def drawn (sh : Shared z) (r : Rect) (encoding : Int) : Shared z :=
  { sh with encoding := encodingName encoding }.tell (.damaged r.x r.y r.w r.h)

/-- Blits a decoded rectangle. -/
def display (sh : Shared z) (r : Rect) (encoding : Int) (scratch : List UInt32) : Run z (Shared z) := do
  let framebuffer ← sh.checked (sh.framebuffer.blit r.x r.y r.w r.h scratch)
  return { sh with framebuffer }.drawn r encoding

def copyRect (sh : Shared z) (r : Rect) : Run z (Shared z) := do
  let srcX ← sh.reading u16
  let srcY ← sh.reading u16
  let framebuffer ← sh.checked (sh.framebuffer.copy srcX srcY r.x r.y r.w r.h)
  return { sh with framebuffer }.drawn r encCopyRect

def desktopSize (sh : Shared z) (r : Rect) : Run z (Shared z) := do
  sh.checkDesktop r.w r.h
  return sh.resize r.w r.h

/-- The rectangle's position is the hotspot; an empty one hides the pointer. -/
def cursor (sh : Shared z) (r : Rect) : Run z (Shared z) :=
  if Decode.emptyCursor r.w r.h then pure (sh.tell (.cursor [] 0 0 0 0))
  else do
    let pixels ← sh.reading (Decode.cursor r.w r.h)
    return sh.tell (.cursor pixels r.w r.h r.x r.y)

/-- The rectangle's x is 0 for relative. -/
def pointerTypeChange (sh : Shared z) (r : Rect) : Shared z :=
  let relative := r.x == 0
  if sh.relativePointer ≠ relative then { sh with relativePointer := relative }.tell (.pointerMode relative)
  else sh

@[simp]
theorem pointerTypeChange_framebuffer (sh : Shared z) (r : Rect) :
    (sh.pointerTypeChange r).framebuffer = sh.framebuffer := by
  unfold pointerTypeChange
  simp only
  split <;> rfl

@[simp]
theorem pointerTypeChange_zlib (sh : Shared z) (r : Rect) : (sh.pointerTypeChange r).zlib = sh.zlib := by
  unfold pointerTypeChange
  simp only
  split <;> rfl

/-- The rectangle's x says why it was sent and its y the result. Only a refusal
of this client's own request means that the size has not changed. -/
def extendedDesktopSize (sh : Shared z) (r : Rect) : Run z (Shared z) := do
  let screens ← sh.reading screenLayout
  let sh := { sh with screens, canResize := true }
  if r.x = resizeReasonClient ∧ r.y ≠ resizeResultSuccess then return sh
  else if sh.framebuffer.width ≠ r.w ∨ sh.framebuffer.height ≠ r.h then
    sh.checkDesktop r.w r.h
    return sh.resize r.w r.h
  else return sh

/-- A rectangle after its header; `none` where the update ends early. -/
def rectangle (sh : Shared z) (r : Rect) (encoding : Int) : Run z (Option (Shared z)) := do
  sh.checkInside r encoding
  if encoding = encLastRect then return none
  else if encoding = encDesktopSize then some <$> sh.desktopSize r
  else if encoding = encCursor then some <$> sh.cursor r
  else if encoding = encExtendedMouseButtons then return some { sh with extendedButtons := true }
  else if encoding = encPointerTypeChange then return some (sh.pointerTypeChange r)
  else if encoding = encExtendedDesktopSize then some <$> sh.extendedDesktopSize r
  else if encoding = encCopyRect then some <$> sh.copyRect r
  else if encoding = encRaw then do
    let scratch ← sh.reading (Decode.raw r.w r.h)
    some <$> sh.display r encoding scratch
  else if encoding = encRre then do
    let scratch ← sh.reading (Decode.rre r.w r.h)
    some <$> sh.display r encoding scratch
  else if encoding = encHextile then do
    let scratch ← sh.reading (Decode.hextile r.w r.h)
    some <$> sh.display r encoding scratch
  else if encoding = encZrle then do
    let (zlib, scratch) ← sh.reading (Decode.zrle z sh.zlib r.w r.h)
    some <$> { sh with zlib }.display r encoding scratch
  else sh.fail (.error (.unsupported s!"encoding {encoding}"))

def rectHeader : Reader (Rect × Int) := do
  let x ← u16
  let y ← u16
  let w ← u16
  let h ← u16
  let encoding ← i32
  return (⟨x, y, w, h⟩, encoding)

def framebufferUpdate : Nat → Shared z → Run z (Shared z)
  | 0, sh => pure sh
  | count + 1, sh => do
    let (r, encoding) ← sh.reading rectHeader
    match ← sh.rectangle r encoding with
    | none => return sh
    | some sh => framebufferUpdate count sh

/-! ## Cut text -/

def maxCutText : Nat := 1 <<< 20

/-- What an extended clipboard message does. -/
def extendedClipboard (sh : Shared z) : Clipboard.Message → Shared z
  | .caps flags utf8Size =>
    { sh with clip := { sh.clip with server := flags, serverUtf8Size := utf8Size.getD 0 } }.send Clipboard.capsMessage
  | .notify formats =>
    if formats &&& Clipboard.utf8 ≠ 0 then
      let sh := { sh with clip := { sh.clip with localText := none } }
      if sh.clip.server &&& Clipboard.request ≠ 0 then sh.send Clipboard.requestMessage else sh
    else sh
  | .provide text =>
    match text with
    | some text => sh.tell (.clipboard text)
    | none => sh
  | .request formats =>
    match sh.clip.localText with
    | some text =>
      if formats &&& Clipboard.utf8 ≠ 0 ∧ !sh.viewOnly then sh.send (Clipboard.localText z sh.clip.server text) else sh
    | none => sh
  | .peek =>
    if sh.clip.server &&& Clipboard.notify ≠ 0 then sh.send (Clipboard.notifyMessage sh.clip.localText.isSome) else sh

/-- It leaves the desktop and the zlib stream alone. -/
theorem extendedClipboard_keeps (sh : Shared z) (message : Clipboard.Message) :
    (sh.extendedClipboard message).framebuffer = sh.framebuffer ∧ (sh.extendedClipboard message).zlib = sh.zlib := by
  cases message with
  | caps flags utf8Size => exact ⟨rfl, rfl⟩
  | provide text => cases text <;> exact ⟨rfl, rfl⟩
  | notify formats | request formats | peek =>
    simp only [extendedClipboard]
    repeat' split
    all_goals exact ⟨rfl, rfl⟩

/-- A cut text after its length, which is negative for an extended one. One over
the limit is skipped. -/
def cutText (sh : Shared z) (length : Int) : Run z (Shared z) := do
  let n := length.natAbs
  if n > maxCutText then
    sh.reading (skip n)
    return sh
  else
    let body ← sh.reading (bytes n)
    if length ≥ 0 then
      return { sh with clip := { sh.clip with localText := none } }.tell (.clipboard (Runtime.toLf (latin1 body)))
    else
      match Clipboard.parse z body maxCutText with
      | .error f => sh.fail f
      | .ok message => return sh.extendedClipboard message

/-- `ServerCutText`, plain or extended. -/
def serverCutText (sh : Shared z) : Run z (Shared z) := do
  sh.reading (skip 3)
  let length ← sh.reading i32
  sh.cutText length

/-! ## The loop -/

/-- One message from the server. -/
def readMessage (sh : Shared z) : Run z (Shared z) := do
  match ← sh.reading u8 with
  | 0 => do
    sh.reading (skip 1)
    let count ← sh.reading u16
    let sh ← sh.framebufferUpdate count
    let sh := { sh with requested := false }
    let sh := if sh.focused then sh.requestUpdate else sh
    return sh.tell .frameEnd
  | 1 => do
    sh.reading (skip 1)
    let _first ← sh.reading u16
    let count ← sh.reading u16
    sh.reading (skip (count * 6))
    return sh
  | 2 => return sh.tell .bell
  | 3 => sh.serverCutText
  | other => sh.fail (.error (.protocol s!"server message type {other}"))

/-- `read_loop`, of `fuel` messages at most: it ends only by failing. -/
def readLoop : Nat → Shared z → Run z (Shared z)
  | 0, sh => sh.fail .hangs
  | fuel + 1, sh => do readLoop fuel (← sh.readMessage)

/-- `ServerInit`, after which the session runs. -/
def serverInit (sh : Shared z) : Run z (Shared z) := do
  let width ← sh.reading u16
  let height ← sh.reading u16
  sh.checkDesktop width height
  sh.reading (skip 16)
  let name ← sh.reading string
  let sh := { sh with framebuffer := sh.framebuffer.resize width height, running := true, desktopName := name }
  return (sh.tell (.connected width height)).requestUpdateFull

/-- A session from `ServerInit` on, over `fuel` messages at most. -/
def session (z : Flate) (fuel : Nat) : Run z (Shared z) := do readLoop fuel (← (new z).serverInit)

end Shared

end Vento.Rfb
