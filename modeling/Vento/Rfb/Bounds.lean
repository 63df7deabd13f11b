import Vento.Rfb.Client
/-!
# The framebuffer, whatever the server sends

`Framebuffer.Inv` holds in every state a session reaches and no bounds check
fails on the way. The states are those a read can wait in: what a session was
left with when the input ended, for every input.
-/

namespace Vento.Rfb

open Vento.Lib Parser

/-- No bounds check failed. -/
def Failure.InBounds (f : Failure) : Prop := f ≠ .panic

theorem Failure.inBounds_error (e : Error) : (Failure.error e).InBounds := by
  intro h
  cases h

theorem Failure.inBounds_hangs : Failure.hangs.InBounds := by
  intro h
  cases h

theorem Failure.IsError.inBounds {f : Failure} (h : f.IsError) : f.InBounds := by
  obtain ⟨e, rfl⟩ := h
  exact inBounds_error e

/-! ## Inflating -/

theorem Flate.inflateLoop_inBounds {z : Flate} {input : List UInt8} {limit fuel : Nat} {s : z.State} {consumed : Nat}
    {out : List UInt8} {f : Failure} (h : z.inflateLoop input limit fuel s consumed out = .error f) : f.InBounds := by
  induction fuel generalizing s consumed out with
  | zero =>
    cases h
    exact Failure.inBounds_hangs
  | succ fuel ih =>
    unfold Flate.inflateLoop at h
    split at h
    · cases h
      exact Failure.inBounds_error _
    · cases hd : z.decompress s (input.drop consumed) with
      | error e =>
        rw [hd] at h
        cases h
        exact Failure.inBounds_error _
      | ok r =>
        rw [hd] at h
        simp only at h
        split at h
        · split at h
          · cases h
            exact Failure.inBounds_error _
          · cases h
        · exact ih h

theorem Decode.sat_zrle (z : Flate) (stream : z.State) (w h : Nat) :
    Sat (zrle z stream w h) (fun r => r.2.length = w * h) Failure.InBounds := by
  refine (sat_u32.weaken fun _ => Failure.IsError.inBounds).bind fun length _ => ?_
  split
  · exact Sat.fail (isError_protocol _).inBounds
  · refine ((sat_bytes length).weaken fun _ => Failure.IsError.inBounds).bind fun compressed _ => ?_
    refine (Sat.lift (Q := fun _ => True) (fun _ _ => trivial) fun f hf => Flate.inflateLoop_inBounds hf).bind
      fun r _ => ?_
    refine (Sat.lift (Q := fun r => r.1.length = w * h) (fun r hr => ?_) fun f hf => ?_).bind fun r hr => Sat.pure hr
    · exact (sat_zrleTiles w h).of_ok hr
    · exact ((sat_zrleTiles w h).of_error hf).inBounds

theorem Clipboard.parse_inBounds {z : Flate} {body : List UInt8} {max : Nat} {f : Failure}
    (h : parse z body max = .error f) : f.InBounds := by
  unfold parse at h
  split at h
  · cases h
    exact Failure.inBounds_error _
  · simp only at h
    split at h
    · split at h
      · cases h
        exact Failure.inBounds_error _
      · cases h
    · split at h
      · cases htext : providedText z _ _ max with
        | error g =>
          rw [htext] at h
          cases h
          exact Flate.inflateLoop_inBounds (providedText_error htext).1
        | ok text =>
          rw [htext] at h
          cases h
      · repeat' split at h
        all_goals cases h
        exact Failure.inBounds_error _

/-! ## Rectangles -/

namespace Shared

variable {z : Flate} {sh : Shared z}

/-- How a session may end. -/
def EndsInBounds (e : Failure × Shared z) : Prop := e.1.InBounds ∧ e.2.framebuffer.Inv

/-- What every step keeps. -/
def Keeps (p : Run z (Shared z)) : Prop := Sat p (fun sh => sh.framebuffer.Inv) EndsInBounds

theorem sat_reading {α : Type} {p : Reader α} {Q : α → Prop} (hi : sh.framebuffer.Inv)
    (hp : Sat p Q Failure.InBounds) : Sat (sh.reading p) Q EndsInBounds := by
  intro bs
  unfold reading
  cases h : p bs with
  | error f => exact ⟨hp.of_error h, hi⟩
  | ok x => exact hp.of_ok h

theorem sat_read {α : Type} {p : Reader α} {Q : α → Prop} (hi : sh.framebuffer.Inv)
    (hp : Sat p Q Failure.IsError) : Sat (sh.reading p) Q EndsInBounds :=
  sat_reading hi (hp.weaken fun _ => Failure.IsError.inBounds)

theorem sat_checked {α : Type} {o : Option α} {Q : α → Prop} {E : Failure × Shared z → Prop}
    (h : ∃ a, o = some a ∧ Q a) : Sat (sh.checked o) Q E := by
  obtain ⟨a, rfl, ha⟩ := h
  exact Sat.pure ha

theorem sat_checkDesktop (hi : sh.framebuffer.Inv) (w h : Nat) :
    Sat (sh.checkDesktop w h) (fun _ => w * h ≤ maxDesktopPixels) EndsInBounds := by
  unfold checkDesktop
  split
  · exact Sat.fail ⟨Failure.inBounds_error _, hi⟩
  · exact Sat.pure (by omega)

/-- A rectangle from its header, whose fields are 16 bits each. -/
def Fields (r : Rect) : Prop := r.x < 2 ^ 16 ∧ r.y < 2 ^ 16 ∧ r.w < 2 ^ 16 ∧ r.h < 2 ^ 16

instance (r : Rect) : Decidable (Fields r) := inferInstanceAs (Decidable (_ ∧ _ ∧ _ ∧ _))

theorem Fields.area {r : Rect} (hr : Fields r) : r.w * r.h < 2 ^ 64 := by
  have := Nat.mul_lt_mul'' hr.2.2.1 hr.2.2.2
  omega

theorem display_keeps {r : Rect} (hi : sh.framebuffer.Inv) (hr : Fields r) (encoding : Int) (scratch : List UInt32) :
    Keeps (sh.display r encoding scratch) := by
  obtain ⟨fb, hfb⟩ := Framebuffer.blit_some (x := r.x) (y := r.y) scratch hi hr.area
  exact (sat_checked ⟨fb, hfb, (Framebuffer.blit_keeps hi hfb).1⟩).bind fun _ h => Sat.pure h

theorem copyRect_keeps (r : Rect) (hi : sh.framebuffer.Inv) : Keeps (sh.copyRect r) := by
  refine (sat_read hi sat_u16).bind fun srcX _ => (sat_read hi sat_u16).bind fun srcY _ => ?_
  obtain ⟨fb, hfb, hinv, -⟩ := Framebuffer.copy_some srcX srcY r.x r.y r.w r.h hi
  exact (sat_checked ⟨fb, hfb, hinv⟩).bind fun _ h => Sat.pure h

theorem desktopSize_keeps {r : Rect} (hi : sh.framebuffer.Inv) (hr : Fields r) : Keeps (sh.desktopSize r) :=
  (sat_checkDesktop hi r.w r.h).bind fun _ hb => Sat.pure (Framebuffer.resize_inv sh.framebuffer hb hr.2.2.1 hr.2.2.2)

theorem cursor_keeps (r : Rect) (hi : sh.framebuffer.Inv) : Keeps (sh.cursor r) := by
  unfold cursor
  split
  · exact Sat.pure hi
  · exact (sat_read hi (Decode.sat_cursor r.w r.h)).bind fun _ _ => Sat.pure hi

theorem sat_screenLayout : Sat screenLayout (fun _ => True) Failure.IsError :=
  sat_u8.bind fun _ _ => (sat_skip 3).bind fun _ _ => Sat.repeatM _ (fun _ _ =>
    sat_u32.bind fun _ _ => sat_u16.bind fun _ _ => sat_u16.bind fun _ _ => sat_u16.bind fun _ _ =>
      sat_u16.bind fun _ _ => sat_u32.bind fun _ _ => Sat.pure trivial) _ trivial

theorem extendedDesktopSize_keeps {r : Rect} (hi : sh.framebuffer.Inv) (hr : Fields r) :
    Keeps (sh.extendedDesktopSize r) := by
  refine (sat_read hi sat_screenLayout).bind fun screens _ => ?_
  simp only
  split
  · exact Sat.pure hi
  · split
    · refine (sat_checkDesktop ?_ r.w r.h).bind fun _ hb =>
        Sat.pure (Framebuffer.resize_inv sh.framebuffer hb hr.2.2.1 hr.2.2.2)
      exact hi
    · exact Sat.pure hi

theorem sat_checkInside (hi : sh.framebuffer.Inv) (r : Rect) (encoding : Int) :
    Sat (sh.checkInside r encoding) (fun _ => True) EndsInBounds := by
  unfold checkInside
  simp only
  split
  · exact Sat.fail ⟨Failure.inBounds_error _, hi⟩
  · exact Sat.pure trivial

theorem Keeps.some {p : Run z (Shared z)} (h : Keeps p) :
    Sat (Option.some <$> p) (fun o => ∀ sh ∈ o, sh.framebuffer.Inv) EndsInBounds :=
  h.map fun _ hsh _ heq => Option.some.inj heq ▸ hsh

/-- A decoder's pixels, blitted. -/
theorem decoded_keeps {p : Reader (List UInt32)} {r : Rect} (hi : sh.framebuffer.Inv) (hr : Fields r) (encoding : Int)
    (hp : Sat p (fun out => out.length = r.w * r.h) Failure.IsError) :
    Sat (sh.reading p >>= fun scratch => Option.some <$> sh.display r encoding scratch)
      (fun o => ∀ sh ∈ o, sh.framebuffer.Inv) EndsInBounds :=
  (sat_read hi hp).bind fun scratch _ => (display_keeps hi hr encoding scratch).some

theorem sat_rectangle {r : Rect} (hi : sh.framebuffer.Inv) (hr : Fields r) (encoding : Int) :
    Sat (sh.rectangle r encoding) (fun o => ∀ sh ∈ o, sh.framebuffer.Inv) EndsInBounds := by
  refine (sat_checkInside hi r encoding).bind fun _ _ => ?_
  -- the encodings, in the order in which the source tries them
  refine Sat.ite (fun _ => Sat.pure fun _ h => absurd h (Option.not_mem_none _)) fun _ => ?_
  refine Sat.ite (fun _ => (desktopSize_keeps hi hr).some) fun _ => ?_
  refine Sat.ite (fun _ => (cursor_keeps r hi).some) fun _ => ?_
  refine Sat.ite (fun _ => Sat.pure fun _ h => Option.some.inj h ▸ hi) fun _ => ?_
  refine Sat.ite (fun _ => Sat.pure fun _ h => Option.some.inj h ▸ by simpa using hi) fun _ => ?_
  refine Sat.ite (fun _ => (extendedDesktopSize_keeps hi hr).some) fun _ => ?_
  refine Sat.ite (fun _ => (copyRect_keeps r hi).some) fun _ => ?_
  refine Sat.ite (fun _ => decoded_keeps hi hr encoding (Decode.sat_raw r.w r.h)) fun _ => ?_
  refine Sat.ite (fun _ => decoded_keeps hi hr encoding (Decode.sat_rre r.w r.h)) fun _ => ?_
  refine Sat.ite (fun _ => decoded_keeps hi hr encoding (Decode.sat_hextile r.w r.h)) fun _ => ?_
  refine Sat.ite (fun _ => ?_) fun _ => Sat.fail ⟨Failure.inBounds_error _, hi⟩
  refine (sat_reading hi (Decode.sat_zrle z sh.zlib r.w r.h)).bind fun (zlib, scratch) _ => Keeps.some ?_
  exact @display_keeps z { sh with zlib } r hi hr encoding scratch

theorem sat_rectHeader : Sat rectHeader (fun header => Fields header.1) Failure.IsError :=
  sat_u16.bind fun _ hx => sat_u16.bind fun _ hy => sat_u16.bind fun _ hw => sat_u16.bind fun _ hh =>
    sat_i32.bind fun _ _ => Sat.pure ⟨hx, hy, hw, hh⟩

/-- A run of rectangles, by induction on their number. -/
theorem framebufferUpdate_keeps (count : Nat) (hi : sh.framebuffer.Inv) : Keeps (framebufferUpdate count sh) := by
  induction count generalizing sh with
  | zero => exact Sat.pure hi
  | succ count ih =>
    refine (sat_read hi sat_rectHeader).bind fun (r, encoding) hr => ?_
    refine (sat_rectangle hi hr encoding).bind fun o ho => ?_
    cases o with
    | none => exact Sat.pure hi
    | some sh' => exact ih (ho sh' rfl)

/-! ## Messages -/

theorem serverCutText_keeps (hi : sh.framebuffer.Inv) : Keeps sh.serverCutText := by
  refine (sat_read hi (sat_skip 3)).bind fun _ _ => (sat_read hi sat_i32).bind fun length _ => ?_
  unfold cutText
  simp only
  split
  · exact (sat_read hi (sat_skip _)).bind fun _ _ => Sat.pure hi
  · refine (sat_read hi (sat_bytes _)).bind fun body _ => ?_
    split
    · exact Sat.pure hi
    · cases hparse : Clipboard.parse z body maxCutText with
      | error f => exact Sat.fail ⟨Clipboard.parse_inBounds hparse, hi⟩
      | ok message => exact Sat.pure ((sh.extendedClipboard_keeps message).1 ▸ hi)

theorem readMessage_keeps (hi : sh.framebuffer.Inv) : Keeps sh.readMessage := by
  refine (sat_read hi sat_u8).bind fun type _ => ?_
  split
  · refine (sat_read hi (sat_skip 1)).bind fun _ _ => (sat_read hi sat_u16).bind fun count _ => ?_
    refine (framebufferUpdate_keeps count hi).bind fun sh' hsh' => Sat.pure ?_
    simp only [tell_framebuffer]
    split
    · simpa using hsh'
    · exact hsh'
  · exact (sat_read hi (sat_skip 1)).bind fun _ _ => (sat_read hi sat_u16).bind fun _ _ =>
      (sat_read hi sat_u16).bind fun count _ => (sat_read hi (sat_skip _)).bind fun _ _ => Sat.pure hi
  · exact Sat.pure hi
  · exact serverCutText_keeps hi
  · exact Sat.fail ⟨Failure.inBounds_error _, hi⟩

theorem readLoop_keeps (fuel : Nat) (hi : sh.framebuffer.Inv) :
    Sat (readLoop fuel sh) (fun _ => False) EndsInBounds := by
  induction fuel generalizing sh with
  | zero => exact Sat.fail ⟨Failure.inBounds_hangs, hi⟩
  | succ fuel ih => exact (readMessage_keeps hi).bind fun _ h => ih h

theorem serverInit_keeps (hi : sh.framebuffer.Inv) : Keeps sh.serverInit := by
  refine (sat_read hi sat_u16).bind fun width hw => (sat_read hi sat_u16).bind fun height hh => ?_
  refine (sat_checkDesktop hi width height).bind fun _ hb => (sat_read hi (sat_skip 16)).bind fun _ _ => ?_
  exact (sat_read hi sat_string).bind fun name _ => Sat.pure (Framebuffer.resize_inv sh.framebuffer hb hw hh)

theorem session_keeps (z : Flate) (fuel : Nat) : Sat (session z fuel) (fun _ => False) EndsInBounds :=
  (serverInit_keeps Framebuffer.new_inv).bind fun _ h => readLoop_keeps fuel h

/-! ## A resize over the limit -/

theorem checkDesktop_over {w h : Nat} (hover : maxDesktopPixels < w * h) (sh : Shared z) :
    sh.checkDesktop w h = sh.fail (.error (.protocol s!"desktop of {w}x{h}")) := if_pos hover

/-- A size over the limit is a protocol error, and the framebuffer stays as it
was; but the size in a refusal of this client's request is not looked at. -/
structure RefusesLarge (sh : Shared z) : Prop where
  desktopSize : ∀ r : Rect, maxDesktopPixels < r.w * r.h → Sat (sh.rectangle r encDesktopSize) (fun _ => False)
    fun e => (∃ what, e.1 = .error (.protocol what)) ∧ e.2.framebuffer = sh.framebuffer
  extendedDesktopSize : ∀ r : Rect, maxDesktopPixels < r.w * r.h → Sat (sh.rectangle r encExtendedDesktopSize)
    (fun o => (r.x = resizeReasonClient ∧ r.y ≠ resizeResultSuccess) ∧ ∀ sh' ∈ o, sh'.framebuffer = sh.framebuffer)
    fun e => e.1.IsError ∧ e.2.framebuffer = sh.framebuffer

theorem sat_reading_same {α : Type} {p : Reader α} {Q : α → Prop} (hp : Sat p Q Failure.IsError) :
    Sat (sh.reading p) Q fun e => e.1.IsError ∧ e.2.framebuffer = sh.framebuffer := by
  intro bs
  unfold reading
  cases h : p bs with
  | error f => exact ⟨hp.of_error h, rfl⟩
  | ok x => exact hp.of_ok h

theorem refusesLarge (hi : sh.framebuffer.Inv) : sh.RefusesLarge where
  desktopSize r hover := by
    unfold rectangle checkInside Shared.desktopSize
    rw [checkDesktop_over hover]
    exact fun _ => ⟨⟨_, rfl⟩, rfl⟩
  extendedDesktopSize r hover := by
    -- the desktop is within the limit, so a size over it is another one
    have hne : sh.framebuffer.width ≠ r.w ∨ sh.framebuffer.height ≠ r.h := by
      by_contra heq
      obtain ⟨hw, hh⟩ : sh.framebuffer.width = r.w ∧ sh.framebuffer.height = r.h := by omega
      have := hi.bound
      rw [hw, hh] at this
      omega
    have hsize : Sat (sh.extendedDesktopSize r)
        (fun sh' => (r.x = resizeReasonClient ∧ r.y ≠ resizeResultSuccess) ∧ sh'.framebuffer = sh.framebuffer)
        fun e => e.1.IsError ∧ e.2.framebuffer = sh.framebuffer := by
      refine (sat_reading_same sat_screenLayout).bind fun screens _ => Sat.ite (fun hrefusal => ?_) fun _ => ?_
      · exact Sat.pure ⟨hrefusal, rfl⟩
      · rw [if_pos hne, checkDesktop_over hover]
        exact fun _ => ⟨isError_protocol _, rfl⟩
    exact hsize.map fun sh' hsh' => ⟨hsh'.1, fun _ heq => Option.some.inj heq ▸ hsh'.2⟩

/-- In every state that any bytes from the server lead to, the framebuffer has
its pixels and no more than the limit, nothing was or can be touched outside of
it or of a destination, and no size over the limit gets through, from
`ServerInit` on. -/
theorem framebuffer_invariant (z : Flate) (fuel : Nat) (input : List UInt8) :
    (∃ f sh, session z fuel input = .error (f, sh) ∧ f.InBounds ∧ sh.framebuffer.Inv ∧ sh.framebuffer.InBounds ∧
      sh.RefusesLarge) ∧
    (∀ w h rest, w < 2 ^ 16 → h < 2 ^ 16 → maxDesktopPixels < w * h →
      (new z).serverInit (toBeBytes 2 w ++ (toBeBytes 2 h ++ rest)) =
        .error (.error (.protocol s!"desktop of {w}x{h}"), new z)) ∧
    (∀ (out : List UInt32) stride height x y w h colour, out.length = stride * height →
      ∃ out', Decode.fill out stride height x y w h colour = some out' ∧ out'.length = out.length) := by
  refine ⟨?_, fun w h rest hw hh hover => ?_, fun out stride height x y w h colour hlen => ?_⟩
  · have hs := session_keeps z fuel input
    cases h : session z fuel input with
    | ok x =>
      rw [h] at hs
      cases hs
    | error e =>
      rw [h] at hs
      obtain ⟨hf, hi⟩ := hs
      exact ⟨e.1, e.2, rfl, hf, hi, hi.inBounds, refusesLarge hi⟩
  · unfold serverInit
    rw [bind_ok (parses_reading (parses_u16 hw) _), bind_ok (parses_reading (parses_u16 hh) _), checkDesktop_over hover]
    rfl
  · obtain ⟨out', hfill, hp⟩ := Decode.fill_painted hlen x y w h colour
    exact ⟨out', hfill, hp.length⟩

end Shared

end Vento.Rfb
