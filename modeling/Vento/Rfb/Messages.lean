import Vento.Lib.Runs
import Vento.Rfb.Bounds
import Vento.Rfb.Encodings
import Vento.Rfb.ZrleEncodings
/-!
# The read loop stays in sync

The messages a server may send, as the protocol describes them, and that
`readLoop` reads each of them from its type byte to the type byte of the next.
The server's side of a session is the size of its desktop and its deflate
stream; both decide what may come next.

Within the protocol the client sets three limits, which are part of the
definitions below: the size of a desktop, the sides of a cursor and the length
of a ZRLE rectangle.
-/

namespace Vento.Rfb

open Vento.Lib Parser

/-! ## What a server sends -/

/-- A server, as far as what it sends depends on it. -/
structure Desk (z : Codec) where
  width : Nat
  height : Nat
  stream : z.Server

def headerBytes (r : Rect) (encoding : Int) : List UInt8 :=
  toBeBytes 2 r.x ++ (toBeBytes 2 r.y ++ (toBeBytes 2 r.w ++ (toBeBytes 2 r.h ++ toBeBytes 4 (ofI32 encoding))))

def screenBytes (s : Screen) : List UInt8 :=
  toBeBytes 4 s.id ++ (toBeBytes 2 s.x ++ (toBeBytes 2 s.y ++ (toBeBytes 2 s.width ++ (toBeBytes 2 s.height ++
    toBeBytes 4 s.flags))))

/-- The fields of a screen are as wide as the protocol has them. -/
def Screen.Fields (s : Screen) : Prop :=
  s.id < 2 ^ 32 ∧ s.x < 2 ^ 16 ∧ s.y < 2 ^ 16 ∧ s.width < 2 ^ 16 ∧ s.height < 2 ^ 16 ∧ s.flags < 2 ^ 32

/-- The screen list of an `ExtendedDesktopSize`, after three bytes of padding. -/
def IsLayout (screens : List Screen) (bs : List UInt8) : Prop :=
  screens.length < 2 ^ 8 ∧ (∀ s ∈ screens, s.Fields) ∧ ∃ pad : List UInt8, pad.length = 3 ∧
    bs = UInt8.ofNat screens.length :: (pad ++ screens.flatMap screenBytes)

open Shared in
/-- What follows the header of a rectangle, and the server after it. A rectangle
of pixels lies in the desktop as it is then. -/
inductive IsBody {z : Codec} (d : Desk z) (r : Rect) : Int → List UInt8 → Desk z → Prop
  | raw {img : Nat → Nat → Rgb} {bs : List UInt8} :
    r.Inside d.width d.height → ArePixels (raster r.w r.h img) bs → IsBody d r encRaw bs d
  | copyRect {srcX srcY : Nat} :
    r.Inside d.width d.height → srcX < 2 ^ 16 → srcY < 2 ^ 16 →
    IsBody d r encCopyRect (toBeBytes 2 srcX ++ toBeBytes 2 srcY) d
  | rre {img : Nat → Nat → Rgb} {bs : List UInt8} :
    r.Inside d.width d.height → IsRre r.w r.h img bs → IsBody d r encRre bs d
  | hextile {img : Nat → Nat → Rgb} {bs : List UInt8} :
    r.Inside d.width d.height → IsHextile r.w r.h img bs → IsBody d r encHextile bs d
  | zrle {img : Nat → Nat → Rgb} {plain bs : List UInt8} {stream : z.Server} :
    r.Inside d.width d.height → AreZrleTiles r.w r.h img plain → z.Deflates d.stream plain bs stream →
    bs.length ≤ Decode.maxZrleLength → IsBody d r encZrle (toBeBytes 4 bs.length ++ bs) { d with stream }
  | cursor {cs : List Rgb} {bs mask : List UInt8} :
    r.w ≤ Decode.maxCursorSide → r.h ≤ Decode.maxCursorSide → ArePixels cs bs → cs.length = r.w * r.h →
    mask.length = (r.w + 7) / 8 * r.h → IsBody d r encCursor (bs ++ mask) d
  | noCursor : r.w = 0 ∨ r.h = 0 → IsBody d r encCursor [] d
  | extendedMouseButtons : IsBody d r encExtendedMouseButtons [] d
  | pointerTypeChange : IsBody d r encPointerTypeChange [] d
  | desktopSize : r.w * r.h ≤ maxDesktopPixels →
    IsBody d r encDesktopSize [] { d with width := r.w, height := r.h }
  | extendedDesktopSize {screens : List Screen} {bs : List UInt8} : IsLayout screens bs →
    ¬(r.x = resizeReasonClient ∧ r.y ≠ resizeResultSuccess) → r.w * r.h ≤ maxDesktopPixels →
    IsBody d r encExtendedDesktopSize bs { d with width := r.w, height := r.h }
  /-- The server's answer to a request of this client that it refuses. -/
  | refusal {screens : List Screen} {bs : List UInt8} : IsLayout screens bs →
    r.x = resizeReasonClient → r.y ≠ resizeResultSuccess → IsBody d r encExtendedDesktopSize bs d

/-- A rectangle. -/
def IsRect {z : Codec} (d : Desk z) (bs : List UInt8) (d' : Desk z) : Prop :=
  ∃ r encoding body, Shared.Fields r ∧ bs = headerBytes r encoding ++ body ∧ IsBody d r encoding body d'

/-- The rectangles of an update that announces `count`: so many, or fewer and
`LastRect`. -/
inductive AreRects {z : Codec} (count : Nat) (d : Desk z) : List UInt8 → Desk z → Prop
  | all {rects : List (List UInt8)} {d' : Desk z} :
    Steps IsRect d rects d' → rects.length = count → AreRects count d rects.flatten d'
  | last {rects : List (List UInt8)} {d' : Desk z} {r : Rect} :
    Steps IsRect d rects d' → rects.length < count → Shared.Fields r →
    AreRects count d (rects.flatten ++ headerBytes r Shared.encLastRect) d'

namespace Clipboard

/-- The formats that flags name. -/
def formats (flags : UInt32) : List Nat := (List.range 16).filter fun bit => flags &&& (1 <<< UInt32.ofNat bit) ≠ 0

/-- The body of an extended clipboard message: flags, and what the action has.
Capabilities have a size for each format; what a provide has is compressed, and
left open here. -/
inductive IsExtended : List UInt8 → Prop
  | caps {flags : UInt32} {sizes : List UInt8} : flags &&& caps ≠ 0 → sizes.length = 4 * (formats flags).length →
    IsExtended (toBeBytes 4 flags.toNat ++ sizes)
  | action {flags : UInt32} {payload : List UInt8} : flags &&& caps = 0 →
    flags &&& actionMask ∈ [provide, request, peek, notify] → IsExtended (toBeBytes 4 flags.toNat ++ payload)

end Clipboard

/-- A message, from its type byte to its last. A cut text over the limit is
skipped, so what an extended one holds does not matter then. -/
inductive IsMessage {z : Codec} (d : Desk z) : List UInt8 → Desk z → Prop
  | framebufferUpdate {pad : UInt8} {count : Nat} {bs : List UInt8} {d' : Desk z} :
    count < 2 ^ 16 → AreRects count d bs d' → IsMessage d (0 :: pad :: (toBeBytes 2 count ++ bs)) d'
  | setColourMapEntries {pad : UInt8} {first count : Nat} {entries : List UInt8} :
    first < 2 ^ 16 → count < 2 ^ 16 → entries.length = count * 6 →
    IsMessage d (1 :: pad :: (toBeBytes 2 first ++ (toBeBytes 2 count ++ entries))) d
  | bell : IsMessage d [2] d
  | serverCutText {pad text : List UInt8} : pad.length = 3 → text.length < 2 ^ 31 →
    IsMessage d (3 :: (pad ++ (toBeBytes 4 text.length ++ text))) d
  | extendedCutText {pad body : List UInt8} : pad.length = 3 → 0 < body.length → body.length ≤ 2 ^ 31 →
    (body.length ≤ Shared.maxCutText → Clipboard.IsExtended body) →
    IsMessage d (3 :: (pad ++ (toBeBytes 4 (ofI32 (-body.length)) ++ body))) d

/-- A client and the server it is connected to, between messages. -/
structure Synced {z : Codec} (d : Desk z) (sh : Shared z.toFlate) : Prop where
  width : sh.framebuffer.width = d.width
  height : sh.framebuffer.height = d.height
  inv : sh.framebuffer.Inv
  stream : z.Sync d.stream sh.zlib [] []

theorem Synced.same {z : Codec} {d : Desk z} {sh sh' : Shared z.toFlate} (hs : Synced d sh)
    (hf : sh'.framebuffer = sh.framebuffer) (hz : sh'.zlib = sh.zlib) : Synced d sh' :=
  ⟨hf ▸ hs.width, hf ▸ hs.height, hf ▸ hs.inv, hz ▸ hs.stream⟩

theorem Synced.resize {z : Codec} {d : Desk z} {sh : Shared z.toFlate} (hs : Synced d sh) {w h : Nat}
    (hb : w * h ≤ maxDesktopPixels) (hw : w < 2 ^ 16) (hh : h < 2 ^ 16) :
    Synced { d with width := w, height := h } (sh.resize w h) :=
  ⟨rfl, rfl, Framebuffer.resize_inv sh.framebuffer hb hw hh, hs.stream⟩

/-! ## Rectangles are read to their end -/

theorem IsBody.encoding_range {z : Codec} {d d' : Desk z} {r : Rect} {encoding : Int} {bs : List UInt8}
    (h : IsBody d r encoding bs d') : -2 ^ 31 ≤ encoding ∧ encoding < 2 ^ 31 := by
  cases h <;> decide

theorem Decode.parses_cursor {w h : Nat} {cs : List Rgb} {bs mask : List UInt8} (hw : w ≤ maxCursorSide)
    (hh : h ≤ maxCursorSide) (hp : ArePixels cs bs) (hlen : cs.length = w * h) (hmask : mask.length = (w + 7) / 8 * h) :
    ∃ out, Parses (cursor w h) (bs ++ mask) out := by
  have hpixels : Parses (repeatM cs.length (fun pixels => do return pixels ++ [← pixel]) []) bs (cs.map pack) :=
    hp.chain.parses_collect pack fun done c _ _ bs _ hc => (parses_pixel hc).bind_last (Parses.pure _)
  rw [hlen] at hpixels
  have hmask' := parses_bytes mask
  rw [hmask] at hmask'
  obtain ⟨out, hout, -⟩ := applyMask_some hmask ((List.length_map pack).trans hlen)
  refine ⟨out, ?_⟩
  unfold cursor
  rw [if_neg (by omega)]
  refine hpixels.bind (hmask'.bind_last ?_)
  rw [hout]
  exact Parses.pure out

namespace Shared

variable {z : Codec} {d d' : Desk z} {sh : Shared z.toFlate} {r : Rect}

theorem parses_rectHeader {encoding : Int} (hr : Fields r) (h1 : -2 ^ 31 ≤ encoding) (h2 : encoding < 2 ^ 31) :
    Parses rectHeader (headerBytes r encoding) (r, encoding) := by
  obtain ⟨hx, hy, hw, hh⟩ := hr
  exact (parses_u16 hx).bind ((parses_u16 hy).bind ((parses_u16 hw).bind ((parses_u16 hh).bind
    ((parses_i32 h1 h2).bind_last (Parses.pure _)))))

theorem parses_screenLayout {screens : List Screen} {bs : List UInt8} (h : IsLayout screens bs) :
    Parses screenLayout bs screens := by
  obtain ⟨hcount, hfields, pad, hpad, rfl⟩ := h
  have hskip := parses_skip pad
  rw [hpad] at hskip
  have hchain : Chain (fun _ s bs _ => bs = screenBytes s) () screens (screens.flatMap screenBytes) () :=
    .flatMap fun _ _ => rfl
  refine Parses.next_bind (hskip.bind ?_)
  rw [UInt8.toNat_ofNat_of_lt' hcount]
  have hscreens := hchain.parses_collect id (f := fun screens => do
    let id ← u32
    let x ← u16
    let y ← u16
    let width ← u16
    let height ← u16
    let flags ← u32
    return screens ++ [⟨id, x, y, width, height, flags⟩]) fun done s hs _ bs _ hbs => ?_
  · rwa [List.map_id] at hscreens
  · subst hbs
    obtain ⟨hid, hx, hy, hw, hh, hflags⟩ := hfields s hs
    exact (parses_u32 hid).bind ((parses_u16 hx).bind ((parses_u16 hy).bind ((parses_u16 hw).bind
      ((parses_u16 hh).bind ((parses_u32 hflags).bind_last (Parses.pure _))))))

theorem parses_checked {α : Type} {o : Option α} {a : α} (h : o = some a) : Parses (sh.checked o) [] a := by
  subst h
  exact Parses.pure a

theorem parses_checkDesktop {w h : Nat} (hb : w * h ≤ maxDesktopPixels) : Parses (sh.checkDesktop w h) [] () := by
  rw [checkDesktop, if_neg (by omega)]
  exact Parses.pure ()

theorem parses_checkInside (hs : Synced d sh) {encoding : Int} (h : isPseudo encoding ∨ r.Inside d.width d.height) :
    Parses (sh.checkInside r encoding) [] () := by
  unfold checkInside
  simp only
  rw [if_neg]
  · exact Parses.pure ()
  · rw [hs.width, hs.height]
    rcases h with hpseudo | hin
    · simp [hpseudo]
    · simp only [Rect.Inside] at hin
      simp only [Bool.and_eq_true, Bool.or_eq_true, decide_eq_true_eq, not_and]
      omega

/-- A decoded rectangle, drawn. -/
theorem parses_display (hs : Synced d sh) (hr : Fields r) (encoding : Int) (scratch : List UInt32) :
    ∃ sh', Parses (sh.display r encoding scratch) [] sh' ∧ Synced d sh' := by
  obtain ⟨fb, hfb⟩ := Framebuffer.blit_some (x := r.x) (y := r.y) scratch hs.inv hr.area
  obtain ⟨hinv, hw, hh⟩ := Framebuffer.blit_keeps hs.inv hfb
  exact ⟨_, (parses_checked hfb).bind_nil (Parses.pure _), hw.trans hs.width, hh.trans hs.height, hinv, hs.stream⟩

theorem parses_decoded {p : Reader (List UInt32)} {bs : List UInt8} {scratch : List UInt32} (hs : Synced d sh)
    (hr : Fields r) (encoding : Int) (hp : Parses p bs scratch) :
    ∃ sh', Parses (sh.reading p >>= fun scratch => some <$> sh.display r encoding scratch) bs (some sh') ∧
      Synced d sh' := by
  obtain ⟨sh', hd, hs'⟩ := parses_display hs hr encoding scratch
  exact ⟨sh', (parses_reading hp).bind_last (hd.map some), hs'⟩

theorem parses_zrleRect {img : Nat → Nat → Rgb} {plain bs : List UInt8} {stream : z.Server} (hs : Synced d sh)
    (hr : Fields r) (he : AreZrleTiles r.w r.h img plain) (hd : z.Deflates d.stream plain bs stream)
    (hlen : bs.length ≤ Decode.maxZrleLength) : ∃ sh', Synced { d with stream } sh' ∧
      Parses (do
        let (zlib, scratch) ← sh.reading (Decode.zrle z.toFlate sh.zlib r.w r.h)
        some <$> { sh with zlib }.display r encZrle scratch) (toBeBytes 4 bs.length ++ bs) (some sh') := by
  obtain ⟨zlib, hzlib, hp⟩ := parses_zrle he hs.stream hd hlen
  have hs' : Synced { d with stream } { sh with zlib } := ⟨hs.width, hs.height, hs.inv, hzlib⟩
  obtain ⟨sh', hd, hs'⟩ := parses_display hs' hr encZrle _
  exact ⟨sh', hs', (parses_reading hp).bind_last (hd.map some)⟩

theorem parses_copyRect {srcX srcY : Nat} (hs : Synced d sh) (hx : srcX < 2 ^ 16) (hy : srcY < 2 ^ 16) :
    ∃ sh', Parses (sh.copyRect r) (toBeBytes 2 srcX ++ toBeBytes 2 srcY) sh' ∧ Synced d sh' := by
  obtain ⟨fb, hfb, hinv, hw, hh⟩ := Framebuffer.copy_some srcX srcY r.x r.y r.w r.h hs.inv
  refine ⟨{ sh with framebuffer := fb }.drawn r encCopyRect, ?_, hw.trans hs.width, hh.trans hs.height, hinv, hs.stream⟩
  exact (parses_reading (parses_u16 hx)).bind ((parses_reading (parses_u16 hy)).bind_last
    ((parses_checked hfb).bind_nil (Parses.pure _)))

theorem parses_extendedDesktopSize {screens : List Screen} {bs : List UInt8} (hs : Synced d sh) (hr : Fields r)
    (hl : IsLayout screens bs) (hnot : ¬(r.x = resizeReasonClient ∧ r.y ≠ resizeResultSuccess))
    (hb : r.w * r.h ≤ maxDesktopPixels) :
    ∃ sh', Parses (sh.extendedDesktopSize r) bs sh' ∧ Synced { d with width := r.w, height := r.h } sh' := by
  have hs' : Synced d { sh with screens, canResize := true } := hs.same rfl rfl
  by_cases hsize : sh.framebuffer.width ≠ r.w ∨ sh.framebuffer.height ≠ r.h
  · refine ⟨_, (parses_reading (parses_screenLayout hl)).bind_last ?_, hs'.resize hb hr.2.2.1 hr.2.2.2⟩
    simp only
    rw [if_neg hnot, if_pos hsize]
    exact (parses_checkDesktop hb).bind_nil (Parses.pure _)
  · refine ⟨{ sh with screens, canResize := true }, (parses_reading (parses_screenLayout hl)).bind_last ?_, ?_⟩
    · simp only
      rw [if_neg hnot, if_neg hsize]
      exact Parses.pure _
    · exact ⟨by simp only; omega, by simp only; omega, hs.inv, hs.stream⟩

theorem parses_emptyCursor (hempty : r.w = 0 ∨ r.h = 0) :
    Parses (sh.cursor r) [] (sh.tell (.cursor [] 0 0 0 0)) := by
  rw [cursor, if_pos (by simpa [Decode.emptyCursor] using hempty)]
  exact Parses.pure _

theorem parses_cursorRect {cs : List Rgb} {bs mask : List UInt8} (hw : r.w ≤ Decode.maxCursorSide)
    (hh : r.h ≤ Decode.maxCursorSide) (hp : ArePixels cs bs) (hlen : cs.length = r.w * r.h)
    (hmask : mask.length = (r.w + 7) / 8 * r.h) : ∃ e, Parses (sh.cursor r) (bs ++ mask) (sh.tell e) := by
  by_cases hempty : r.w = 0 ∨ r.h = 0
  · -- an empty cursor has neither pixels nor mask
    have hbytes : bs ++ mask = [] := by
      have hbs := hp.length
      rw [hlen] at hbs
      rcases hempty with h0 | h0 <;> rw [h0] at hbs hmask <;> simp_all
    exact ⟨_, hbytes ▸ parses_emptyCursor hempty⟩
  · obtain ⟨pixels, hp⟩ := Decode.parses_cursor hw hh hp hlen hmask
    refine ⟨.cursor pixels r.w r.h r.x r.y, ?_⟩
    rw [cursor, if_neg (by simpa [Decode.emptyCursor] using hempty)]
    exact (parses_reading hp).bind_last (Parses.pure _)

theorem parses_desktopSize (hb : r.w * r.h ≤ maxDesktopPixels) :
    Parses (sh.desktopSize r) [] (sh.resize r.w r.h) := (parses_checkDesktop hb).bind_nil (Parses.pure _)

theorem parses_refusal {screens : List Screen} {bs : List UInt8} (hl : IsLayout screens bs)
    (hx : r.x = resizeReasonClient) (hy : r.y ≠ resizeResultSuccess) :
    Parses (sh.extendedDesktopSize r) bs { sh with screens, canResize := true } := by
  refine (parses_reading (parses_screenLayout hl)).bind_last ?_
  simp only
  rw [if_pos ⟨hx, hy⟩]
  exact Parses.pure _

/-- A rectangle after its header. -/
theorem parses_rectangle {encoding : Int} {bs : List UInt8} (hs : Synced d sh) (hr : Fields r)
    (hb : IsBody d r encoding bs d') : ∃ sh', Parses (sh.rectangle r encoding) bs (some sh') ∧ Synced d' sh' := by
  cases hb with
  -- Pixels, which lie in the desktop.
  | raw hin hp =>
    obtain ⟨sh', hp, hs'⟩ := parses_decoded hs hr encRaw (parses_raw hp)
    exact ⟨sh', (parses_checkInside hs (.inr hin)).bind_nil hp, hs'⟩
  | copyRect hin hx hy =>
    obtain ⟨sh', hp, hs'⟩ := parses_copyRect hs hx hy
    exact ⟨sh', (parses_checkInside hs (.inr hin)).bind_nil (hp.map some), hs'⟩
  | rre hin hp =>
    obtain ⟨sh', hp, hs'⟩ := parses_decoded hs hr encRre (parses_rre hp)
    exact ⟨sh', (parses_checkInside hs (.inr hin)).bind_nil hp, hs'⟩
  | hextile hin hp =>
    obtain ⟨sh', hp, hs'⟩ := parses_decoded hs hr encHextile (parses_hextile hp)
    exact ⟨sh', (parses_checkInside hs (.inr hin)).bind_nil hp, hs'⟩
  | zrle hin he hd hlen =>
    obtain ⟨sh', hs', hp⟩ := parses_zrleRect hs hr he hd hlen
    exact ⟨sh', (parses_checkInside hs (.inr hin)).bind_nil hp, hs'⟩
  -- Pseudo-encodings, whose fields are not a place in the desktop.
  | cursor hw hh hp hlen hmask =>
    obtain ⟨e, hp⟩ := parses_cursorRect hw hh hp hlen hmask
    exact ⟨_, (parses_checkInside hs (.inl rfl)).bind_nil (hp.map some), hs.same rfl rfl⟩
  | noCursor hempty =>
    exact ⟨_, (parses_checkInside hs (.inl rfl)).bind_nil ((parses_emptyCursor hempty).map some), hs.same rfl rfl⟩
  | extendedMouseButtons =>
    exact ⟨_, (parses_checkInside hs (.inl rfl)).bind_nil (Parses.pure _), hs.same rfl rfl⟩
  | pointerTypeChange =>
    exact ⟨_, (parses_checkInside hs (.inl rfl)).bind_nil (Parses.pure _),
      hs.same (sh.pointerTypeChange_framebuffer r) (sh.pointerTypeChange_zlib r)⟩
  | desktopSize hb =>
    exact ⟨_, (parses_checkInside hs (.inl rfl)).bind_nil ((parses_desktopSize hb).map some),
      hs.resize hb hr.2.2.1 hr.2.2.2⟩
  | extendedDesktopSize hl hnot hb =>
    obtain ⟨sh', hp, hs'⟩ := parses_extendedDesktopSize hs hr hl hnot hb
    exact ⟨sh', (parses_checkInside hs (.inl rfl)).bind_nil (hp.map some), hs'⟩
  | refusal hl hx hy =>
    exact ⟨_, (parses_checkInside hs (.inl rfl)).bind_nil ((parses_refusal hl hx hy).map some), hs.same rfl rfl⟩

/-- The rectangles of an update, one after another, leave the loop where they end. -/
theorem parses_rects {rects : List (List UInt8)} (hr : Steps IsRect d rects d') (hs : Synced d sh) :
    ∃ sh', Synced d' sh' ∧ ∀ count bs v, Parses (framebufferUpdate count sh') bs v →
      Parses (framebufferUpdate (rects.length + count) sh) (rects.flatten ++ bs) v := by
  induction hr generalizing sh with
  | nil d => exact ⟨sh, hs, fun count bs v h => by simpa using h⟩
  | @cons d d₁ d' bs rects hrect _ ih =>
    obtain ⟨r, encoding, body, hr, rfl, hb⟩ := hrect
    obtain ⟨sh₁, hp, hs₁⟩ := parses_rectangle hs hr hb
    obtain ⟨sh', hs', hrest⟩ := ih hs₁
    refine ⟨sh', hs', fun count bs v h => ?_⟩
    -- whatever is read after the last rectangle is read after the first one too
    rw [List.length_cons, Nat.succ_add, List.flatten_cons, List.append_assoc, List.append_assoc]
    have hheader : Parses (sh.reading rectHeader) (headerBytes r encoding) (r, encoding) :=
      parses_reading (parses_rectHeader hr hb.encoding_range.1 hb.encoding_range.2)
    exact hheader.bind (hp.bind (hrest count bs v h))

theorem parses_framebufferUpdate {count : Nat} {bs : List UInt8} (hs : Synced d sh) (h : AreRects count d bs d') :
    ∃ sh', Parses (framebufferUpdate count sh) bs sh' ∧ Synced d' sh' := by
  cases h with
  | all hr hcount =>
    obtain ⟨sh', hs', hrest⟩ := parses_rects hr hs
    refine ⟨sh', ?_, hs'⟩
    simpa [hcount] using hrest 0 [] sh' (Parses.pure sh')
  | @last rects _ r hr hcount hfields =>
    obtain ⟨sh', hs', hrest⟩ := parses_rects hr hs
    obtain ⟨n, rfl⟩ : ∃ n, count = rects.length + (n + 1) := ⟨count - rects.length - 1, by omega⟩
    refine ⟨sh', hrest (n + 1) _ sh' ?_, hs'⟩
    have hheader : Parses (sh'.reading rectHeader) (headerBytes r encLastRect) (r, encLastRect) :=
      parses_reading (parses_rectHeader hfields (by decide) (by decide))
    have hlast : Parses (sh'.rectangle r encLastRect) [] none :=
      (parses_checkInside hs' (.inl rfl)).bind_nil (Parses.pure none)
    exact hheader.bind_last (hlast.bind_nil (Parses.pure sh'))

end Shared

/-! ## Cut texts -/

namespace Clipboard

theorem capsSizes_ok {flags : UInt32} {sizes : List Nat} (h : (formats flags).length ≤ sizes.length) :
    ∃ size, capsSizes flags sizes = .ok size := by
  suffices hbits : ∀ (bits : List Nat) (s : List Nat × Option Nat),
      (bits.filter fun bit => flags &&& (1 <<< UInt32.ofNat bit) ≠ 0).length ≤ s.1.length →
      ∃ s', bits.foldlM (capsSize flags) s = .ok s' by
    obtain ⟨s', hs'⟩ := hbits (List.range 16) (sizes, none) h
    exact ⟨s'.2, by rw [capsSizes, hs']; rfl⟩
  clear h sizes
  intro bits
  induction bits with
  | nil => exact fun s _ => ⟨s, rfl⟩
  | cons bit bits ih =>
    rintro ⟨sizes, found⟩ hlen
    rw [List.foldlM_cons, capsSize]
    by_cases hbit : flags &&& (1 <<< UInt32.ofNat bit) ≠ 0
    · rw [List.filter_cons_of_pos (by simpa using hbit), List.length_cons] at hlen
      cases sizes with
      | nil => simp at hlen
      | cons size sizes =>
        rw [if_pos hbit]
        exact ih _ (Nat.le_of_succ_le_succ hlen)
    · rw [List.filter_cons_of_neg (by simpa using hbit)] at hlen
      rw [if_neg hbit]
      exact ih _ hlen

/-- What cannot be inflated is dropped, not refused. -/
theorem providedText_ok (z : Codec) (flags : UInt32) (deflated : List UInt8) (max : Nat) :
    ∃ text, providedText z.toFlate flags deflated max = .ok text := by
  cases h : providedText z.toFlate flags deflated max with
  | ok text => exact ⟨text, rfl⟩
  | error f =>
    obtain ⟨hinflate, hnot⟩ := providedText_error h
    cases f with
    | error e => exact absurd rfl (hnot e)
    | panic => exact absurd rfl (Flate.inflateLoop_inBounds hinflate)
    | hangs => exact absurd hinflate (Codec.inflate_ends _ _ _)

def flagsOf (body : List UInt8) : UInt32 := UInt32.ofNat (fromBeBytes (body.take 4))

/-- The flags of one of the five actions and, after those of the capabilities, a
size for each format. -/
def Complete (body : List UInt8) : Prop :=
  4 ≤ body.length ∧
    if flagsOf body &&& caps ≠ 0 then (formats (flagsOf body)).length ≤ (words (body.drop 4)).length
    else flagsOf body &&& actionMask ∈ [provide, request, peek, notify]

theorem flags_append (flags : UInt32) (payload : List UInt8) :
    flagsOf (toBeBytes 4 flags.toNat ++ payload) = flags ∧
    (toBeBytes 4 flags.toNat ++ payload).drop 4 = payload ∧ 4 ≤ (toBeBytes 4 flags.toNat ++ payload).length := by
  have htake : (toBeBytes 4 flags.toNat ++ payload).take 4 = toBeBytes 4 flags.toNat :=
    List.take_left' (toBeBytes_length 4 _)
  rw [flagsOf, htake, fromBeBytes_toBeBytes (by have := flags.toNat_lt; omega), UInt32.ofNat_toNat]
  exact ⟨rfl, List.drop_left' (toBeBytes_length 4 _), by simp⟩

theorem IsExtended.complete {body : List UInt8} (h : IsExtended body) : Complete body := by
  cases h with
  | @caps flags sizes hcaps hsizes =>
    obtain ⟨h1, h2, h3⟩ := flags_append flags sizes
    unfold Complete
    rw [h1, h2, if_pos hcaps, words_length hsizes]
    exact ⟨h3, Nat.le_refl _⟩
  | @action flags payload hcaps haction =>
    obtain ⟨h1, -, h3⟩ := flags_append flags payload
    unfold Complete
    rw [h1, if_neg (by simpa using hcaps)]
    exact ⟨h3, haction⟩

theorem parse_ok (z : Codec) {body : List UInt8} (max : Nat) (h : Complete body) :
    ∃ message, parse z.toFlate body max = .ok message := by
  obtain ⟨hlen, haction⟩ := h
  unfold parse
  rw [if_neg (by omega)]
  unfold flagsOf at haction
  generalize UInt32.ofNat (fromBeBytes (body.take 4)) = flags at haction ⊢
  simp only
  split at haction
  · rename_i hcaps
    obtain ⟨size, hsize⟩ := capsSizes_ok haction
    rw [if_pos hcaps, hsize]
    exact ⟨_, rfl⟩
  · rename_i hcaps
    obtain ⟨text, htext⟩ := providedText_ok z flags (body.drop 4) max
    rw [if_neg hcaps, htext]
    simp only [List.mem_cons, List.not_mem_nil, or_false] at haction
    rcases haction with ha | ha | ha | ha <;> rw [ha]
    · exact ⟨_, rfl⟩
    · exact ⟨_, rfl⟩
    · exact ⟨_, rfl⟩
    · exact ⟨_, rfl⟩

end Clipboard

namespace Shared

variable {z : Codec} {d d' : Desk z} {sh : Shared z.toFlate}

/-- A cut text of a length of either sign. -/
theorem parses_cutText {body : List UInt8} {length : Int} (hs : Synced d sh) (hlen : length.natAbs = body.length)
    (hbody : length < 0 → body.length ≤ maxCutText → Clipboard.IsExtended body) :
    ∃ sh', Parses (sh.cutText length) body sh' ∧ Synced d sh' := by
  unfold cutText
  simp only [hlen]
  have hread : Parses (sh.reading (bytes body.length)) body body := parses_reading (parses_bytes body)
  by_cases hover : body.length > maxCutText
  · refine ⟨sh, ?_, hs⟩
    rw [if_pos hover]
    exact (parses_reading (parses_skip body)).bind_last (Parses.pure sh)
  · rw [if_neg hover]
    by_cases hpos : length ≥ 0
    · simp only [if_pos hpos]
      exact ⟨_, hread.bind_last (Parses.pure _), hs.same rfl rfl⟩
    · obtain ⟨message, hm⟩ := Clipboard.parse_ok z maxCutText (hbody (by omega) (by omega)).complete
      have hkeeps := sh.extendedClipboard_keeps message
      refine ⟨sh.extendedClipboard message, hread.bind_last ?_, hs.same hkeeps.1 hkeeps.2⟩
      rw [if_neg hpos, hm]
      exact Parses.pure _

theorem parses_serverCutText {pad body : List UInt8} {length : Int} (hs : Synced d sh) (hpad : pad.length = 3)
    (h1 : -2 ^ 31 ≤ length) (h2 : length < 2 ^ 31) (hlen : length.natAbs = body.length)
    (hbody : length < 0 → body.length ≤ maxCutText → Clipboard.IsExtended body) :
    ∃ sh', Parses sh.serverCutText (pad ++ (toBeBytes 4 (ofI32 length) ++ body)) sh' ∧ Synced d sh' := by
  have hskip : Parses (sh.reading (skip 3)) pad () := hpad ▸ parses_reading (parses_skip pad)
  obtain ⟨sh', hp, hs'⟩ := parses_cutText hs hlen hbody
  exact ⟨sh', hskip.bind ((parses_reading (parses_i32 h1 h2)).bind hp), hs'⟩

/-- A message, from its type byte to its last. -/
theorem parses_readMessage {bs : List UInt8} (hs : Synced d sh) (hm : IsMessage d bs d') :
    ∃ sh', Parses sh.readMessage bs sh' ∧ Synced d' sh' := by
  have htype : ∀ {type : UInt8} {bs : List UInt8} {f : UInt8 → Run z.toFlate (Shared z.toFlate)}
      {sh' : Shared z.toFlate},
      Parses (f type) bs sh' → Parses (sh.reading u8 >>= f) (type :: bs) sh' :=
    fun h => (parses_reading (parses_u8 _)).bind h
  have hpad : ∀ pad : UInt8, Parses (sh.reading (skip 1)) [pad] () := fun pad => parses_reading (parses_skip [pad])
  cases hm with
  | @framebufferUpdate pad count bs _ hcount hrects =>
    obtain ⟨sh', hp, hs'⟩ := parses_framebufferUpdate hs hrects
    refine ⟨_, htype ((hpad pad).bind ((parses_reading (parses_u16 hcount)).bind (hp.bind_last (Parses.pure _)))),
      hs'.same ?_ ?_⟩
    · simp only [tell_framebuffer]
      split
      · exact requestUpdate_framebuffer _
      · rfl
    · simp only [tell_zlib]
      split
      · exact requestUpdate_zlib _
      · rfl
  | @setColourMapEntries pad first count entries hfirst hcount hlen =>
    have hskip : Parses (sh.reading (skip (count * 6))) entries () := hlen ▸ parses_reading (parses_skip entries)
    exact ⟨sh, htype ((hpad pad).bind ((parses_reading (parses_u16 hfirst)).bind
      ((parses_reading (parses_u16 hcount)).bind
      (hskip.bind_last (Parses.pure sh))))), hs⟩
  | bell => exact ⟨_, htype (Parses.pure _), hs.same rfl rfl⟩
  | @serverCutText pad text hpad hlen =>
    have hlength : (toBeBytes 4 text.length) = toBeBytes 4 (ofI32 text.length) := by
      rw [show ofI32 text.length = text.length by unfold ofI32; omega]
    obtain ⟨sh', hp, hs'⟩ := @parses_serverCutText z d sh pad text text.length hs hpad (by omega) (by omega) (by omega)
      (by omega)
    exact ⟨sh', hlength ▸ htype hp, hs'⟩
  | @extendedCutText pad body hpad hpos hlen hbody =>
    obtain ⟨sh', hp, hs'⟩ := @parses_serverCutText z d sh pad body (-body.length) hs hpad (by omega) (by omega)
      (by omega) fun _ => hbody
    exact ⟨sh', htype hp, hs'⟩

/-! ## The loop -/

/-- The messages of a stream, each read from its type byte to its last. -/
abbrev Reads (sh : Shared z.toFlate) (msgs : List (List UInt8)) (sh' : Shared z.toFlate) : Prop :=
  Steps (fun sh msg sh' => Parses sh.readMessage msg sh') sh msgs sh'

/-- Read messages leave the loop at the type byte after them. -/
theorem Reads.readLoop_eq {msgs : List (List UInt8)} {sh sh' : Shared z.toFlate} (h : Reads sh msgs sh') (fuel : Nat)
    (rest : List UInt8) : readLoop (msgs.length + fuel) sh (msgs.flatten ++ rest) = readLoop fuel sh' rest := by
  induction h with
  | nil sh => simp
  | @cons sh sh₁ sh' msg msgs hmsg _ ih =>
    rw [List.length_cons, Nat.succ_add, List.flatten_cons, List.append_assoc]
    exact (bind_ok (hmsg _)).trans ih

/-- Where the stream ends after a message, the next type byte is missing. -/
theorem readLoop_eof (fuel : Nat) (sh : Shared z.toFlate) : readLoop (fuel + 1) sh [] = .error (eof, sh) := rfl

/-- `readLoop` stays in sync with the server: it reads every message to its last
byte, one after another, and what ends it is the end of the stream. -/
theorem readLoop_in_sync {msgs : List (List UInt8)} (hs : Synced d sh) (hm : Steps IsMessage d msgs d') :
    ∃ sh', Reads sh msgs sh' ∧ Synced d' sh' ∧
      (∀ fuel rest, readLoop (msgs.length + fuel) sh (msgs.flatten ++ rest) = readLoop fuel sh' rest) ∧
      ∀ fuel, msgs.length < fuel → readLoop fuel sh msgs.flatten = .error (eof, sh') := by
  have hreads : ∃ sh', Reads sh msgs sh' ∧ Synced d' sh' := by
    refine hm.simulate Synced ?_ hs
    exact fun _ _ _ _ => parses_readMessage
  obtain ⟨sh', hr, hs'⟩ := hreads
  refine ⟨sh', hr, hs', hr.readLoop_eq, fun fuel hfuel => ?_⟩
  -- one round for each message, and one that finds the stream at its end
  obtain ⟨n, rfl⟩ : ∃ n, fuel = msgs.length + (n + 1) := ⟨fuel - msgs.length - 1, by omega⟩
  have hend := hr.readLoop_eq (n + 1) []
  rw [List.append_nil] at hend
  rw [hend, readLoop_eof]

/-- The server's `ServerInit`: its size, its pixel format and its name. -/
def IsServerInit (w h : Nat) (bs : List UInt8) : Prop :=
  w < 2 ^ 16 ∧ h < 2 ^ 16 ∧ w * h ≤ maxDesktopPixels ∧ ∃ format name : List UInt8, format.length = 16 ∧
    name.length ≤ maxString ∧
    bs = toBeBytes 2 w ++ (toBeBytes 2 h ++ (format ++ (toBeBytes 4 name.length ++ name)))

/-- A session starts in sync. -/
theorem parses_serverInit {w h : Nat} {bs : List UInt8} (hb : IsServerInit w h bs) :
    ∃ sh, Parses (new z.toFlate).serverInit bs sh ∧ Synced ⟨w, h, z.start⟩ sh := by
  obtain ⟨hw, hh, hsize, format, name, hformat, hname, rfl⟩ := hb
  have hskip : Parses ((new z.toFlate).reading (skip 16)) format () := hformat ▸ parses_reading (parses_skip format)
  have hstring : Parses string (toBeBytes 4 name.length ++ name) (latin1 name) := by
    have hmax : maxString < 2 ^ 32 := by decide
    refine (parses_u32 (by omega)).bind ?_
    rw [if_neg (by omega)]
    exact (parses_bytes name).map latin1
  refine ⟨_, (parses_reading (parses_u16 hw)).bind ((parses_reading (parses_u16 hh)).bind
    ((parses_checkDesktop hsize).bind_nil (hskip.bind ((parses_reading hstring).bind_last (Parses.pure _))))), ?_⟩
  exact ⟨rfl, rfl, Framebuffer.resize_inv Framebuffer.new hsize hw hh, z.sync_new⟩

/-- An update that announces three rectangles and ends after one, a bell and a
cut text. -/
def someMessages : List (List UInt8) :=
  [[0, 0, 0, 3, 0, 1, 0, 0, 0, 1, 0, 1, 0, 0, 0, 0, 9, 8, 7, 0, 0, 0, 0, 0, 0, 0, 0, 0, 0xff, 0xff, 0xff, 0x20], [2],
    [3, 0, 0, 0, 0, 0, 0, 1, 65]]

theorem isRect_raw : IsRect (⟨2, 1, .cmf⟩ : Desk storedCodec) [0, 1, 0, 0, 0, 1, 0, 1, 0, 0, 0, 0, 9, 8, 7, 0]
    ⟨2, 1, .cmf⟩ := by
  have hpixel : ArePixels (raster 1 1 fun _ _ => ⟨9, 8, 7⟩) [9, 8, 7, 0] := .cons ⟨0, rfl⟩ .nil
  exact ⟨⟨1, 0, 1, 1⟩, encRaw, [9, 8, 7, 0], by decide, by decide, .raw (by decide) hpixel⟩

theorem someMessages_steps : Steps IsMessage (⟨2, 1, .cmf⟩ : Desk storedCodec) someMessages ⟨2, 1, .cmf⟩ := by
  have hrects : AreRects 3 (⟨2, 1, .cmf⟩ : Desk storedCodec)
      ([0, 1, 0, 0, 0, 1, 0, 1, 0, 0, 0, 0, 9, 8, 7, 0] ++ headerBytes ⟨0, 0, 0, 0⟩ encLastRect) ⟨2, 1, .cmf⟩ :=
    @AreRects.last _ _ _ [_] _ _ (.cons isRect_raw (.nil _)) (by decide) (by decide)
  exact .cons (@IsMessage.framebufferUpdate _ _ 0 3 _ _ (by decide) hrects) (.cons .bell
    (.cons (@IsMessage.serverCutText _ _ [0, 0, 0] [65] rfl (by decide)) (.nil _)))

theorem readLoop_in_sync_some : ∃ sh sh' : Shared storedCodec.toFlate,
    Parses (new storedCodec.toFlate).serverInit ([0, 2, 0, 1] ++ (List.replicate 16 0 ++ [0, 0, 0, 0])) sh ∧
    readLoop 4 sh someMessages.flatten = .error (eof, sh') := by
  obtain ⟨sh, hp, hs⟩ := @parses_serverInit storedCodec 2 1 ([0, 2, 0, 1] ++ (List.replicate 16 0 ++ [0, 0, 0, 0]))
    ⟨by decide, by decide, by decide, List.replicate 16 0, [], by decide, by decide, by decide⟩
  obtain ⟨sh', -, -, -, hloop⟩ := readLoop_in_sync hs someMessages_steps
  exact ⟨sh, sh', hp, hloop 4 (by decide)⟩

/-! ## The three limits -/

/-- An update fails as its first rectangle does. -/
theorem readMessage_refused {r : Rect} {encoding : Int} {body : List UInt8} {e : Failure × Shared z.toFlate}
    (hr : Fields r) (h1 : -2 ^ 31 ≤ encoding) (h2 : encoding < 2 ^ 31) (h : sh.rectangle r encoding body = .error e) :
    sh.readMessage (0 :: 0 :: (toBeBytes 2 1 ++ (headerBytes r encoding ++ body))) = .error e := by
  have hskip : Parses (sh.reading (skip 1)) [0] () := parses_reading (parses_skip [0])
  have hcount : Parses (sh.reading u16) (toBeBytes 2 1) 1 := parses_reading (parses_u16 (by decide))
  have hheader : Parses (sh.reading rectHeader) (headerBytes r encoding) (r, encoding) :=
    parses_reading (parses_rectHeader hr h1 h2)
  have hupdate : framebufferUpdate 1 sh (headerBytes r encoding ++ body) = .error e :=
    (bind_ok (hheader body)).trans (bind_error h)
  exact (bind_ok (parses_reading (parses_u8 0) _)).trans ((bind_ok (hskip _)).trans ((bind_ok (hcount _)).trans
    (bind_error hupdate)))

theorem reading_error {α : Type} {p : Reader α} {body : List UInt8} {f : Failure} (h : p body = .error f) :
    sh.reading p body = .error (f, sh) := by
  rw [reading, h]

theorem desktopSize_refused {r : Rect} (hs : Synced d sh) (hr : Fields r) (hover : maxDesktopPixels < r.w * r.h) :
    sh.readMessage (0 :: 0 :: (toBeBytes 2 1 ++ (headerBytes r encDesktopSize ++ []))) =
      .error (.error (.protocol s!"desktop of {r.w}x{r.h}"), sh) := by
  refine readMessage_refused hr (by decide) (by decide) ?_
  refine (bind_ok (parses_checkInside hs (.inl rfl) [])).trans (map_error ?_)
  exact bind_error (congrFun (checkDesktop_over hover sh) [])

theorem cursor_refused {r : Rect} (hs : Synced d sh) (hr : Fields r) (hover : Decode.maxCursorSide < r.w)
    (hh : 0 < r.h) (body : List UInt8) :
    sh.readMessage (0 :: 0 :: (toBeBytes 2 1 ++ (headerBytes r encCursor ++ body))) =
      .error (.error (.protocol s!"cursor of {r.w}x{r.h}"), sh) := by
  refine readMessage_refused hr (by decide) (by decide) ?_
  refine (bind_ok (parses_checkInside hs (.inl rfl) body)).trans (map_error ?_)
  have hfull : ¬Decode.emptyCursor r.w r.h = true := by
    simp only [Decode.emptyCursor, Bool.or_eq_true, beq_iff_eq]
    omega
  rw [cursor, if_neg hfull]
  refine bind_error (reading_error ?_)
  rw [Decode.cursor, if_pos (.inl hover)]
  rfl

theorem zrle_refused {r : Rect} {bs : List UInt8} (hs : Synced d sh) (hr : Fields r) (hin : r.Inside d.width d.height)
    (hover : Decode.maxZrleLength < bs.length) (hlen : bs.length < 2 ^ 32) :
    sh.readMessage (0 :: 0 :: (toBeBytes 2 1 ++ (headerBytes r encZrle ++ (toBeBytes 4 bs.length ++ bs)))) =
      .error (.error (.protocol s!"ZRLE rectangle of {bs.length} bytes"), sh) := by
  refine readMessage_refused hr (by decide) (by decide) ?_
  refine (bind_ok (parses_checkInside hs (.inr hin) _)).trans (bind_error (reading_error ?_))
  refine (bind_ok (parses_u32 hlen bs)).trans ?_
  rw [if_pos hover]
  rfl

/-- The protocol has none of the limits: a desktop may be as large as its 16-bit
fields say, a cursor too, and a server may deflate a rectangle to any length. -/
theorem limits_refused : ∃ sh : Shared storedCodec.toFlate, Synced (⟨2, 1, .cmf⟩ : Desk storedCodec) sh ∧
    sh.readMessage (0 :: 0 :: (toBeBytes 2 1 ++ (headerBytes ⟨0, 0, 65535, 65535⟩ encDesktopSize ++ []))) =
      .error (.error (.protocol "desktop of 65535x65535"), sh) ∧
    (∀ body, sh.readMessage (0 :: 0 :: (toBeBytes 2 1 ++ (headerBytes ⟨0, 0, 1025, 1⟩ encCursor ++ body))) =
      .error (.error (.protocol "cursor of 1025x1"), sh)) ∧
    ∃ plain bs, AreZrleTiles 1 1 (fun _ _ => ⟨0, 0, 0⟩) plain ∧ storedCodec.Deflates .cmf plain bs .block ∧
      sh.readMessage (0 :: 0 :: (toBeBytes 2 1 ++
        (headerBytes ⟨0, 0, 1, 1⟩ encZrle ++ (toBeBytes 4 bs.length ++ bs)))) =
        .error (.error (.protocol s!"ZRLE rectangle of {bs.length} bytes"), sh) := by
  obtain ⟨sh, -, hs⟩ := @parses_serverInit storedCodec 2 1 ([0, 2, 0, 1] ++ (List.replicate 16 0 ++ [0, 0, 0, 0]))
    ⟨by decide, by decide, by decide, List.replicate 16 0, [], by decide, by decide, by decide⟩
  refine ⟨sh, hs, desktopSize_refused hs (by decide) (by decide),
    cursor_refused hs (by decide) (by decide) (by decide), ?_⟩
  -- one black pixel, and then flushes enough
  obtain ⟨flushes, hflushes, hlen⟩ := Stored.exists_flushes (2 ^ 24)
  obtain ⟨plain, hplain, hshort⟩ : ∃ plain : List UInt8, AreZrleTiles 1 1 (fun _ _ => ⟨0, 0, 0⟩) plain ∧
      plain.length = 4 := ⟨_, areZrleTiles_rawTiles 1 1 _, rawTiles_length 1 1 _⟩
  have hblocks := Stored.Blocks.cons (by omega : plain.length < 2 ^ 16) hflushes
  rw [List.append_nil] at hblocks
  obtain ⟨bs, hbs, hbslen⟩ : ∃ bs, bs = Stored.header .cmf ++ (Stored.blockBytes plain ++ flushes) ∧
      bs.length = 11 + 5 * 2 ^ 24 := by
    refine ⟨_, rfl, ?_⟩
    simp only [Stored.header, Stored.blockBytes, if_true, List.length_append, List.length_cons, List.length_nil, hlen,
      hshort]
    omega
  have hmax : Decode.maxZrleLength = 67108864 := by decide
  exact ⟨plain, bs, hplain, ⟨rfl, _, hblocks, hbs⟩, zrle_refused hs (by decide) (by decide) (by omega) (by omega)⟩

end Shared

end Vento.Rfb
