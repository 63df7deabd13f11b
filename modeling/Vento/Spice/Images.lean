import Mathlib.Data.List.Basic
import Vento.Lib.Runs
import Vento.Spice.Display
/-!
# Images and the cache the server names them from

`spice/src/images.rs`: an image is decoded by its type, and one that came with the cache-me flag is
kept, to be drawn again when the server names it. The decoders, the dictionary of GLZ and the cache
are another crate's: `Ryll` stands for them, and `Lawful` for what is relied on.

`named_image_returned`: what a descriptor that names a kept image gets is the last image that arrived to
be kept under that id, unless it was invalidated or the cache has had to drop it, in every run in
which nothing to be kept is a GLZ image or comes with an id of its stream's own.
-/

namespace Vento.Spice

open Vento.Lib

inductive ImageType where
  | pixmap
  | quic
  | lzRgb
  | glzRgb
  | zlibGlzRgb
  | lz4
  | jpeg
  | jpegAlpha
  | fromCache
  | fromCacheLossless
  /-- One that is not decoded. -/
  | other
deriving DecidableEq, Repr

structure ImageDescriptor where
  imageId : UInt64
  imageType : UInt8
  flags : UInt8
  width : UInt32
  height : UInt32
deriving DecidableEq, Repr

structure DecompressedImage where
  width : UInt32
  height : UInt32
  pixels : List UInt8
  imageId : UInt64
  winHeadDist : UInt32
deriving DecidableEq, Repr

/-- Ryll's crates (with zlib under one image type): the dictionary of GLZ is a `δ`, the cache a `κ`. -/
structure Ryll (δ κ : Type) where
  /-- `ImageType::from_u8`. -/
  imageType : UInt8 → Option ImageType
  /-- `IMAGE_FLAGS_CACHE_ME`. -/
  cacheMe : UInt8
  /-- `DecompressedImage::new`. -/
  new : UInt32 → UInt32 → List UInt8 → UInt64 → Option DecompressedImage
  decompressLz : List UInt8 → Option DecompressedImage
  decompressGlz : List UInt8 → δ → Option DecompressedImage
  decompressSpiceLz4 : List UInt8 → Nat → Nat → Option DecompressedImage
  quicDecode : List UInt8 → UInt32 → UInt32 → Option (List UInt8)
  /-- `JpegDecoder::decode`: the size and the `R, G, B, A` bytes. -/
  jpegDecode : List UInt8 → Option (UInt32 × UInt32 × List UInt8)
  /-- `ZlibDecoder`, read to its end or to that many bytes. -/
  inflate : List UInt8 → Nat → Option (List UInt8)
  noImages : δ
  dictInsert : δ → UInt64 → List UInt8 → δ
  evictOlderThan : δ → UInt64 → δ
  dictClear : δ → δ
  /-- `ByteBoundedLru`: the entries it has are what `get` finds. -/
  lruNew : Nat → κ
  lruInsert : κ → UInt64 → List UInt8 → κ
  lruGet : κ → UInt64 → κ × Option (List UInt8)
  lruClear : κ → κ

/-- What is relied on: an image is made of what it is given, a lookup in the cache drops nothing, and
an insertion puts the entry there, changes no other, and drops what no longer fits. -/
structure Ryll.Lawful {δ κ : Type} (r : Ryll δ κ) : Prop where
  new_fields : ∀ w h pixels id d, r.new w h pixels id = some d →
    d.width = w ∧ d.height = h ∧ d.pixels = pixels ∧ d.imageId = id
  get_new : ∀ n id, (r.lruGet (r.lruNew n) id).2 = none
  get_get : ∀ c i j, (r.lruGet (r.lruGet c i).1 j).2 = (r.lruGet c j).2
  get_insert_self : ∀ c i e, (r.lruGet (r.lruInsert c i e) i).2 = some e ∨ (r.lruGet (r.lruInsert c i e) i).2 = none
  get_insert_ne : ∀ c i e j, j ≠ i →
    (r.lruGet (r.lruInsert c i e) j).2 = (r.lruGet c j).2 ∨ (r.lruGet (r.lruInsert c i e) j).2 = none
  get_clear : ∀ c id, (r.lruGet (r.lruClear c) id).2 = none

/-! ## The streams -/

/-- `data.get(n..)`. -/
def tail (data : List UInt8) (n : Nat) : Option (List UInt8) := if n ≤ data.length then some (data.drop n) else none

/-- A big-endian word, as LZ has them. -/
def beU32 (data : List UInt8) (i : Nat) : Option Nat :=
  if i + 4 ≤ data.length then some (fromLeBytes ((data.drop i).take 4).reverse) else none

/-- An LZ or GLZ stream's own size, at the given place of its header, is within its image's. -/
def lzFits (stream : List UInt8) (i pixels : Nat) : Bool :=
  match beU32 stream i, beU32 stream (i + 4) with
  | some width, some height => width * height ≤ pixels
  | _, _ => false

def lz : Nat := 12

def glz : Nat := 9

def glzBound (pixels : Nat) : Nat := pixels * 5 + 64

section
variable {δ κ : Type} (r : Ryll δ κ)

/-- A 32-bit bitmap: a header of its own and then rows, bottom-up unless a flag says otherwise. -/
def pixmap (data : List UInt8) (id : UInt64) : Option DecompressedImage :=
  if data.length < 18 then none
  else do
    let format := data.getD 0 0
    let topDown := data.getD 1 0 &&& 0x04 ≠ 0
    let width ← readU32 data 2
    let height ← readU32 data 6
    let stride ← readU32 data 10
    if format ≠ 8 ∧ format ≠ 9 then none
    else
      let rows := data.drop 18
      if width = 0 ∨ height = 0 ∨ stride < width * 4 ∨ stride * height > rows.length then none
      else
        let pixels := (List.range height).flatMap fun y => (List.range width).flatMap fun x =>
          let i := (if topDown then y else height - 1 - y) * stride + x * 4
          [rows.getD (i + 2) 0, rows.getD (i + 1) 0, rows.getD i 0, if format = 9 then rows.getD (i + 3) 0 else 0xff]
        r.new (UInt32.ofNat width) (UInt32.ofNat height) pixels id

/-! ## A JPEG's alpha -/

/-- A run longer than three bits hold: bytes that add up and end with one below 255. -/
def longRun : List UInt8 → Nat → List UInt8 × Nat
  | [], n => ([], n)
  | b :: rest, n => if b ≠ 255 then (rest, n + b.toNat) else longRun rest (n + b.toNat)

theorem longRun_length (rest : List UInt8) (n : Nat) : (longRun rest n).1.length ≤ rest.length := by
  induction rest generalizing n with
  | nil => exact Nat.le_refl _
  | cons b rest ih =>
    unfold longRun
    split
    · exact Nat.le_succ _
    · exact Nat.le_succ_of_le (ih _)

/-- How far back a reference goes, with the high bits it has so far; `none` is a stream cut short. -/
def backReach (high : Nat) : List UInt8 → Option (List UInt8 × Nat)
  | [] => none
  | low :: rest =>
    if low = 255 ∧ high = 31 <<< 8 then
      match rest with
      | a :: b :: rest => some (rest, (a.toNat <<< 8 ||| b.toNat) + 8191 + 1)
      | _ => none
    else some (rest, high + low.toNat + 1)

theorem backReach_length {high : Nat} {rest rest' : List UInt8} {offset : Nat}
    (h : backReach high rest = some (rest', offset)) : rest'.length < rest.length := by
  unfold backReach at h
  split at h
  · cases h
  · split at h
    · split at h
      · cases h
        simp only [List.length_cons]
        omega
      · cases h
    · cases h
      exact Nat.lt_succ_self _

/-- Bytes from `offset` back, which may be ones that were just copied. -/
def copyBack (offset : Nat) : Nat → List UInt8 → List UInt8
  | 0, alpha => alpha
  | n + 1, alpha => copyBack offset n (alpha ++ [alpha.getD (alpha.length - offset) 0])

/-- The control bytes of LZ, with pixels of one byte; `none` for a reference to before the start. -/
def alphaRuns (count : Nat) (data alpha : List UInt8) : Option (List UInt8) :=
  match data with
  | [] => some alpha
  | ctrl :: rest =>
    if count ≤ alpha.length then some alpha
    else if ctrl < 32 then
      let run := min (min (ctrl.toNat + 1) (count - alpha.length)) rest.length
      alphaRuns count (rest.drop run) (alpha ++ rest.take run)
    else
      let length := (ctrl >>> 5).toNat
      let run := if length = 7 then longRun rest length else (rest, length)
      match _reach : backReach ((ctrl &&& 0x1f).toNat <<< 8) run.1 with
      | none => some alpha
      | some (left, offset) =>
        if offset > alpha.length then none
        else alphaRuns count left (copyBack offset (min run.2 (count - alpha.length)) alpha)
termination_by data.length
decreasing_by
  · simp only [List.length_drop, List.length_cons]
    omega
  · have h1 := backReach_length _reach
    have h2 : run.1.length ≤ rest.length := by
      dsimp only [run]
      split
      · exact longRun_length _ _
      · exact Nat.le_refl _
    exact Nat.lt_succ_of_le (Nat.le_of_lt (Nat.lt_of_lt_of_le h1 h2))

/-- The alpha channel of a `JPEG_ALPHA` image, written into its pixels; `none` for a stream that is
not one. -/
def lzAlpha (data pixels : List UInt8) : Option (List UInt8) :=
  if data.length < 28 ∨ data.take 4 ≠ [0x20, 0x20, 0x5a, 0x4c] then none
  else do
    let width ← beU32 data 12
    let height ← beU32 data 16
    let topDown := (← beU32 data 24) ≠ 0
    let count := width * height
    if count = 0 ∨ count * 4 > pixels.length then none
    else
      let alpha ← alphaRuns count (data.drop 28) []
      return pixels.mapIdx fun i b =>
        if i % 4 = 3 ∧ i / 4 < count then
          let y := i / 4 / width
          alpha.getD ((if topDown then y else height - 1 - y) * width + i / 4 % width) 0
        else b

/-! ## Decoding -/

/-- An image by its type, as its decoder has it; the types that name a kept one apart. -/
def decoded (dictionary : δ) (kind : ImageType) (d : ImageDescriptor) (data : List UInt8) : Option DecompressedImage :=
  let pixels := d.width.toNat * d.height.toNat
  match kind with
  | .pixmap => pixmap r data d.imageId
  | .lzRgb => (tail data 4).bind fun stream => if lzFits stream lz pixels then r.decompressLz stream else none
  | .glzRgb => (tail data 4).bind fun stream =>
      if lzFits stream glz pixels then r.decompressGlz stream dictionary else none
  | .zlibGlzRgb => do
    let compressed ← readU32 data 4
    let zlib ← slice data 8 (8 + min compressed (data.length - 8))
    let stream ← r.inflate zlib (glzBound pixels)
    if lzFits stream glz pixels then r.decompressGlz stream dictionary else none
  | .lz4 => do
    let size ← readU32 data 0
    let stream ← slice data 4 (4 + size)
    r.decompressSpiceLz4 stream d.width.toNat d.height.toNat
  | .quic => do
    let stream ← tail data 4
    let pixels ← r.quicDecode stream d.width d.height
    r.new d.width d.height pixels d.imageId
  | .jpeg => do
    let stream ← tail data 4
    let (width, height, rgba) ← r.jpegDecode stream
    r.new width height rgba d.imageId
  | .jpegAlpha => do
    let jpegSize ← readU32 data 1
    let dataSize ← readU32 data 5
    let body ← slice data 9 (9 + min dataSize (data.length - 9))
    let (width, height, rgba) ← r.jpegDecode (← slice body 0 jpegSize)
    let alpha ← tail body jpegSize
    -- an alpha that does not decode leaves the colour as it is
    r.new width height ((lzAlpha alpha rgba).getD rgba) d.imageId
  | .fromCache | .fromCacheLossless | .other => none

structure Images (δ κ : Type) where
  dictionary : δ
  cache : κ

namespace Images

def new (cacheBytes : Nat) : Images δ κ := ⟨r.noImages, r.lruNew cacheBytes⟩

/-- An entry of the cache: the width and the height, and then the pixels. -/
def entry (image : DecompressedImage) : List UInt8 :=
  toLeBytes 4 image.width.toNat ++ toLeBytes 4 image.height.toNat ++ image.pixels

def keep (cache : κ) (image : DecompressedImage) : κ := r.lruInsert cache image.imageId (entry image)

/-- What an entry says; nothing for one that is too short. -/
def ofEntry (entry : List UInt8) : Option Image :=
  if 8 ≤ entry.length then
    some ⟨fromLeBytes (entry.take 4), fromLeBytes ((entry.drop 4).take 4), entry.drop 8⟩
  else none

def kept (cache : κ) (id : UInt64) : κ × Option Image :=
  let found := r.lruGet cache id
  (found.1, found.2.bind ofEntry)

def toImage (image : DecompressedImage) : Image := ⟨image.width.toNat, image.height.toNat, image.pixels⟩

/-- Where a decoded image goes: a GLZ one into the dictionary, another that asks for it into the
cache. -/
def store (s : Images δ κ) (kind : ImageType) (d : ImageDescriptor) (image : DecompressedImage) : Images δ κ :=
  if kind = .glzRgb ∨ kind = .zlibGlzRgb then
    let dictionary := r.dictInsert s.dictionary image.imageId image.pixels
    let dist := image.winHeadDist.toUInt64
    if dist > 0 then
      let oldest := if dist ≤ image.imageId then image.imageId - dist else 0
      { s with dictionary := r.evictOlderThan dictionary oldest }
    else { s with dictionary }
  else if d.flags &&& r.cacheMe ≠ 0 then { s with cache := keep r s.cache image }
  else s

def decode (s : Images δ κ) (d : ImageDescriptor) (data : List UInt8) : Images δ κ × Option Image :=
  if d.width.toNat * d.height.toNat > maxDesktopPixels then (s, none)
  else
    match r.imageType d.imageType with
    | none => (s, none)
    | some kind =>
      if kind = .fromCache ∨ kind = .fromCacheLossless then
        let found := kept r s.cache d.imageId
        ({ s with cache := found.1 }, found.2)
      else
        match decoded r s.dictionary kind d data with
        | none => (s, none)
        | some image => (store r s kind d image, some (toImage image))

def forget (s : Images δ κ) : Images δ κ := ⟨r.dictClear s.dictionary, r.lruClear s.cache⟩

end Images

/-! ## What the server may name -/

/-- A draw's image, or what is no longer to be named: everything (`INVAL_ALL_PIXMAPS` and `RESET`), or
a list of ids (`INVAL_LIST`), which is not a message that is handled. -/
inductive PixmapMessage where
  | image (d : ImageDescriptor) (data : List UInt8)
  | invalAll
  | invalList (ids : List UInt64)
deriving DecidableEq, Repr

/-- The images, and for each id the last one that arrived to be kept under it, unless it was
invalidated or dropped since. -/
structure Pixmaps (δ κ : Type) where
  images : Images δ κ
  named : UInt64 → Option Image

namespace Pixmaps

def start (cacheBytes : Nat) : Pixmaps δ κ := ⟨Images.new r cacheBytes, fun _ => none⟩

def names (d : ImageDescriptor) : Bool :=
  match r.imageType d.imageType with
  | some .fromCache | some .fromCacheLossless => true
  | _ => false

/-- The cache has no room for what is under `id`: for an entry it had, or for the one that came. -/
def dropped (before after : κ) (d : ImageDescriptor) (image : Image) (id : UInt64) : Bool :=
  ((r.lruGet before id).2.isSome && (r.lruGet after id).2.isNone) ||
    (id == d.imageId && (r.lruGet (r.lruInsert before id
      (toLeBytes 4 image.width ++ toLeBytes 4 image.height ++ image.pixels)) id).2.isNone)

/-- `named` after an image: one that names a kept image brings none. -/
def arrives (s : Pixmaps δ κ) (d : ImageDescriptor) (after : κ) : Option Image → UInt64 → Option Image
  | none => s.named
  | some image =>
    if !names r d && d.flags &&& r.cacheMe != 0 then fun id =>
      if dropped r s.images.cache after d image id then none
      else if id = d.imageId then some image
      else s.named id
    else s.named

def step (s : Pixmaps δ κ) : PixmapMessage → Option (Pixmaps δ κ)
  | .image d data =>
    let result := s.images.decode r d data
    some ⟨result.1, s.arrives r d result.1.cache result.2⟩
  | .invalAll => some ⟨s.images.forget r, fun _ => none⟩
  | .invalList ids => some ⟨s.images, fun id => if id ∈ ids then none else s.named id⟩

/-- An image to be kept is no GLZ one, and an LZ or LZ4 stream's decoder gives it the id its
descriptor has; a list of ids has none that is kept. -/
def Proper (s : Pixmaps δ κ) : PixmapMessage → Prop
  | .image d data => d.flags &&& r.cacheMe ≠ 0 →
      match r.imageType d.imageType with
      | some .glzRgb | some .zlibGlzRgb => False
      | some .lzRgb => ∀ image ∈ r.decompressLz (data.drop 4), image.imageId = d.imageId
      | some .lz4 => ∀ image ∈ r.decompressSpiceLz4 ((data.take (4 + fromLeBytes (data.take 4))).drop 4) d.width.toNat
          d.height.toNat, image.imageId = d.imageId
      | _ => True
  | .invalAll => True
  | .invalList ids => ∀ id ∈ ids, (r.lruGet s.images.cache id).2 = none

end Pixmaps

/-! ## Entries -/

theorem ofEntry_entry (image : DecompressedImage) : Images.ofEntry (Images.entry image) = some (Images.toImage image) := by
  have hw : fromLeBytes (toLeBytes 4 image.width.toNat) = image.width.toNat :=
    fromLeBytes_toLeBytes (by have := image.width.toNat_lt; omega)
  have hh : fromLeBytes (toLeBytes 4 image.height.toNat) = image.height.toNat :=
    fromLeBytes_toLeBytes (by have := image.height.toNat_lt; omega)
  unfold Images.ofEntry Images.entry Images.toImage
  rw [if_pos (by simp; omega)]
  have h1 : (toLeBytes 4 image.width.toNat ++ toLeBytes 4 image.height.toNat ++ image.pixels).take 4 =
      toLeBytes 4 image.width.toNat := by
    rw [List.append_assoc]
    exact List.take_left' (toLeBytes_length _ _)
  have h2 : (toLeBytes 4 image.width.toNat ++ toLeBytes 4 image.height.toNat ++ image.pixels).drop 4 =
      toLeBytes 4 image.height.toNat ++ image.pixels := by
    rw [List.append_assoc]
    exact List.drop_left' (toLeBytes_length _ _)
  have h3 : (toLeBytes 4 image.width.toNat ++ toLeBytes 4 image.height.toNat ++ image.pixels).drop 8 = image.pixels :=
    List.drop_left' (by simp)
  rw [h1, h2, h3, List.take_left' (toLeBytes_length _ _), hw, hh]

variable {r}

/-- A decoder that is handed the descriptor's id gives it to its image, and so do the others where
they are asked to. -/
theorem decoded_imageId (hr : r.Lawful) {s : Pixmaps δ κ} {d : ImageDescriptor} {data : List UInt8} {kind : ImageType}
    {image : DecompressedImage} (hk : r.imageType d.imageType = some kind) (hc : s.Proper r (.image d data))
    (hf : d.flags &&& r.cacheMe ≠ 0) (h : decoded r s.images.dictionary kind d data = some image) :
    image.imageId = d.imageId ∧ ¬(kind = .glzRgb ∨ kind = .zlibGlzRgb) := by
  have hc := hc hf
  rw [hk] at hc
  have hnew : ∀ {w h pixels}, r.new w h pixels d.imageId = some image → image.imageId = d.imageId :=
    fun h => (hr.new_fields _ _ _ _ _ h).2.2.2
  cases kind with
  | pixmap =>
    refine ⟨?_, by decide⟩
    unfold decoded pixmap at h
    dsimp only at h
    split at h
    · cases h
    · simp only [Option.bind_eq_bind, Option.bind_eq_some_iff] at h
      obtain ⟨width, -, height, -, stride, -, h⟩ := h
      split at h
      · cases h
      · split at h
        · cases h
        · exact hnew h
  | lzRgb =>
    refine ⟨?_, by decide⟩
    simp only [decoded, tail, Option.bind_eq_some_iff] at h
    obtain ⟨stream, hs, h⟩ := h
    split at hs
    · cases hs
      split at h
      · exact hc image h
      · cases h
    · cases hs
  | glzRgb => exact absurd hc id
  | zlibGlzRgb => exact absurd hc id
  | lz4 =>
    refine ⟨?_, by decide⟩
    simp only [decoded, Option.bind_eq_bind, Option.bind_eq_some_iff] at h
    obtain ⟨size, hsize, stream, hs, h⟩ := h
    obtain ⟨-, -, rfl⟩ := slice_eq_some.1 hs
    unfold readU32 at hsize
    split at hsize
    · cases hsize
      rw [List.drop_zero] at h
      exact hc image h
    · cases hsize
  | quic =>
    refine ⟨?_, by decide⟩
    simp only [decoded, Option.bind_eq_bind, Option.bind_eq_some_iff] at h
    obtain ⟨stream, -, pixels, -, h⟩ := h
    exact hnew h
  | jpeg =>
    refine ⟨?_, by decide⟩
    simp only [decoded, Option.bind_eq_bind, Option.bind_eq_some_iff] at h
    obtain ⟨stream, -, ⟨width, height, rgba⟩, -, h⟩ := h
    exact hnew h
  | jpegAlpha =>
    refine ⟨?_, by decide⟩
    simp only [decoded, Option.bind_eq_bind, Option.bind_eq_some_iff] at h
    obtain ⟨jpegSize, -, dataSize, -, body, -, colour, -, ⟨width, height, rgba⟩, -, alpha, -, h⟩ := h
    exact hnew h
  | fromCache => cases h
  | fromCacheLossless => cases h
  | other => cases h

/-! ## Runs -/

namespace Pixmaps

/-- Under every id the cache has the image that may be named, or neither is there. -/
def Kept (r : Ryll δ κ) (cache : κ) (named : UInt64 → Option Image) : Prop :=
  ∀ id, ((r.lruGet cache id).2 = none ∧ named id = none) ∨
    ∃ image, (r.lruGet cache id).2 = some (Images.entry image) ∧ named id = some (Images.toImage image)

/-- The image that came is dropped if the cache did not take it. -/
theorem dropped_self (before : κ) (d : ImageDescriptor) (image : DecompressedImage) :
    dropped r before (r.lruInsert before d.imageId (Images.entry image)) d (Images.toImage image) d.imageId =
      (r.lruGet (r.lruInsert before d.imageId (Images.entry image)) d.imageId).2.isNone := by
  have hself : dropped r before (r.lruInsert before d.imageId (Images.entry image)) d (Images.toImage image) d.imageId =
      (((r.lruGet before d.imageId).2.isSome &&
          (r.lruGet (r.lruInsert before d.imageId (Images.entry image)) d.imageId).2.isNone) ||
        (d.imageId == d.imageId &&
          (r.lruGet (r.lruInsert before d.imageId (Images.entry image)) d.imageId).2.isNone)) := rfl
  rw [hself, beq_self_eq_true, Bool.true_and]
  cases (r.lruGet (r.lruInsert before d.imageId (Images.entry image)) d.imageId).2 <;> simp

/-- Another is dropped if it was there and is no longer. -/
theorem dropped_ne (before after : κ) {d : ImageDescriptor} (image : Image) {id : UInt64} (hi : id ≠ d.imageId) :
    dropped r before after d image id = ((r.lruGet before id).2.isSome && (r.lruGet after id).2.isNone) := by
  simp [dropped, hi]

theorem Kept.insert (hr : r.Lawful) {s : Pixmaps δ κ} (h : Kept r s.images.cache s.named) {d : ImageDescriptor}
    {image : DecompressedImage} (hid : image.imageId = d.imageId) :
    Kept r (Images.keep r s.images.cache image) fun id =>
      if dropped r s.images.cache (Images.keep r s.images.cache image) d (Images.toImage image) id then none
      else if id = d.imageId then some (Images.toImage image)
      else s.named id := by
  intro id
  unfold Images.keep
  rw [hid]
  beta_reduce
  by_cases hi : id = d.imageId
  · subst hi
    rw [dropped_self, if_pos rfl]
    rcases hr.get_insert_self s.images.cache d.imageId (Images.entry image) with he | he
    · refine Or.inr ⟨image, he, ?_⟩
      rw [he]
      rfl
    · refine Or.inl ⟨he, ?_⟩
      rw [he]
      rfl
  · rw [dropped_ne _ _ _ hi, if_neg hi]
    rcases hr.get_insert_ne s.images.cache d.imageId (Images.entry image) id hi with he | he
    · rw [he]
      rcases h id with ⟨hg, hn⟩ | ⟨image', hg, hn⟩
      · exact Or.inl ⟨hg, by simp [hg, hn]⟩
      · exact Or.inr ⟨image', hg, by simp [hg, hn]⟩
    · refine Or.inl ⟨he, ?_⟩
      rcases h id with ⟨hg, hn⟩ | ⟨image', hg, -⟩
      · simp [hg, hn]
      · simp [hg, he]

theorem Kept.image (hr : r.Lawful) {s : Pixmaps δ κ} (h : Kept r s.images.cache s.named) {d : ImageDescriptor}
    {data : List UInt8} (hc : s.Proper r (.image d data)) :
    Kept r (s.images.decode r d data).1.cache
      (s.arrives r d (s.images.decode r d data).1.cache (s.images.decode r d data).2) := by
  unfold Images.decode
  split
  · exact h
  · cases hk : r.imageType d.imageType with
    | none => exact h
    | some kind =>
      dsimp only
      split
      · rename_i hfrom
        have hnames : names r d = true := by
          unfold names
          rw [hk]
          rcases hfrom with rfl | rfl <;> rfl
        have harrives : ∀ c o, s.arrives r d c o = s.named := by
          intro c o
          cases o with
          | none => rfl
          | some image => simp [arrives, hnames]
        dsimp only
        rw [harrives]
        intro id
        have hg : (r.lruGet (Images.kept r s.images.cache d.imageId).1 id).2 = (r.lruGet s.images.cache id).2 :=
          hr.get_get s.images.cache d.imageId id
        rw [hg]
        exact h id
      · rename_i hfrom
        have hnames : names r d = false := by
          unfold names
          rw [hk]
          cases kind with
          | fromCache => exact absurd (Or.inl rfl) hfrom
          | fromCacheLossless => exact absurd (Or.inr rfl) hfrom
          | _ => rfl
        cases hd : decoded r s.images.dictionary kind d data with
        | none => exact h
        | some image =>
          dsimp only
          by_cases hf : d.flags &&& r.cacheMe = 0
          · have hcache : (Images.store r s.images kind d image).cache = s.images.cache := by
              unfold Images.store
              dsimp only
              split
              · split <;> rfl
              · simp [hf]
            rw [hcache]
            have harrives : s.arrives r d s.images.cache (some (Images.toImage image)) = s.named := by
              simp [arrives, hf]
            rw [harrives]
            exact h
          · obtain ⟨hid, hglz⟩ := decoded_imageId hr hk hc hf hd
            have hstore : Images.store r s.images kind d image =
                { s.images with cache := Images.keep r s.images.cache image } := by
              unfold Images.store
              rw [if_neg hglz, if_pos hf]
            rw [hstore]
            have harrives : ∀ c, s.arrives r d c (some (Images.toImage image)) = fun id =>
                if dropped r s.images.cache c d (Images.toImage image) id then none
                else if id = d.imageId then some (Images.toImage image)
                else s.named id := by
              intro c
              simp [arrives, hnames, hf]
            rw [harrives]
            exact h.insert hr hid

theorem Kept.step (hr : r.Lawful) {s s' : Pixmaps δ κ} (h : Kept r s.images.cache s.named) {m : PixmapMessage}
    (hc : s.Proper r m) (hs : step r s m = some s') : Kept r s'.images.cache s'.named := by
  cases m with
  | image d data =>
    cases hs
    exact h.image hr hc
  | invalAll =>
    cases hs
    exact fun id => Or.inl ⟨hr.get_clear _ id, rfl⟩
  | invalList ids =>
    cases hs
    intro id
    by_cases hi : id ∈ ids
    · exact Or.inl ⟨hc id hi, if_pos hi⟩
    · show ((r.lruGet s.images.cache id).2 = none ∧ (if id ∈ ids then none else s.named id) = none) ∨ ∃ image,
        (r.lruGet s.images.cache id).2 = some (Images.entry image) ∧
          (if id ∈ ids then none else s.named id) = some (Images.toImage image)
      rw [if_neg hi]
      exact h id

end Pixmaps

/-- In every run whose messages are proper, a descriptor that names a kept image, of a size a desktop
can have, gets the last image that arrived to be kept under its id and was not invalidated or
dropped since, and nothing where there is none. -/
theorem named_image_returned (hr : r.Lawful) (cacheBytes : Nat) (messages : List PixmapMessage) (s : Pixmaps δ κ)
    (hm : Meets (Pixmaps.step r) (Pixmaps.Proper r) (Pixmaps.start r cacheBytes) messages)
    (hs : run (Pixmaps.step r) (Pixmaps.start r cacheBytes) messages = some s) (d : ImageDescriptor) (data : List UInt8)
    (hd : Pixmaps.names r d = true) (hsize : d.width.toNat * d.height.toNat ≤ maxDesktopPixels) :
    (s.images.decode r d data).2 = s.named d.imageId := by
  have h : Pixmaps.Kept r s.images.cache s.named :=
    trace_inv (fun _ s => Pixmaps.Kept r s.images.cache s.named) (fun id => Or.inl ⟨hr.get_new cacheBytes id, rfl⟩)
      (fun _ _ _ _ hi hc hs => hi.step hr hc hs) hm hs
  unfold Images.decode
  rw [if_neg (by omega)]
  unfold Pixmaps.names at hd
  cases hk : r.imageType d.imageType with
  | none =>
    rw [hk] at hd
    cases hd
  | some kind =>
    rw [hk] at hd
    have hfrom : kind = .fromCache ∨ kind = .fromCacheLossless := by
      cases kind with
      | fromCache => exact Or.inl rfl
      | fromCacheLossless => exact Or.inr rfl
      | _ => cases hd
    dsimp only
    rw [if_pos hfrom]
    show (r.lruGet s.images.cache d.imageId).2.bind Images.ofEntry = s.named d.imageId
    rcases h d.imageId with ⟨hg, hn⟩ | ⟨image, hg, hn⟩
    · rw [hg, hn]
      rfl
    · rw [hg, hn]
      exact ofEntry_entry image

end

/-- The crates where the cache is never full, a bitmap is not checked further than its length, and a
GLZ stream is one literal pixel. -/
def sampleRyll : Ryll Unit (UInt64 → Option (List UInt8)) where
  imageType n :=
    if n = 0 then some .pixmap else if n = 102 then some .glzRgb else if n = 103 then some .fromCache else none
  cacheMe := 1
  new w h pixels id := if pixels.length = w.toNat * h.toNat * 4 then some ⟨w, h, pixels, id, 0⟩ else none
  decompressLz _ := none
  decompressGlz stream _ :=
    match stream.drop 33 with
    | [0, b, g, r] => some ⟨1, 1, [r, g, b, 0xff], UInt64.ofNat (fromLeBytes ((stream.drop 21).take 8).reverse), 0⟩
    | _ => none
  decompressSpiceLz4 _ _ _ := none
  quicDecode _ _ _ := none
  jpegDecode _ := none
  inflate _ _ := none
  noImages := ()
  dictInsert _ _ _ := ()
  evictOlderThan _ _ := ()
  dictClear _ := ()
  lruNew _ := fun _ => none
  lruInsert c id e := fun i => if i = id then some e else c i
  lruGet c id := (c, c id)
  lruClear _ := fun _ => none

theorem sampleRyll_lawful : sampleRyll.Lawful where
  new_fields w h pixels id d hd := by
    simp only [sampleRyll] at hd
    split at hd
    · cases hd
      exact ⟨rfl, rfl, rfl, rfl⟩
    · cases hd
  get_new _ _ := rfl
  get_get _ _ _ := rfl
  get_insert_self c i e := Or.inl (if_pos rfl)
  get_insert_ne c i e j hj := Or.inl (if_neg hj)
  get_clear _ _ := rfl

/-- A bitmap of one pixel. -/
def onePixel : List UInt8 := [9, 4, 1, 0, 0, 0, 1, 0, 0, 0, 4, 0, 0, 0, 0, 0, 0, 0, 0x33, 0x22, 0x11, 0x80]

/-- A GLZ stream of one pixel behind the message's prefix, with the id 9 of its own. -/
def oneGlzPixel : List UInt8 :=
  [0, 0, 0, 0, 0x20, 0x20, 0x5a, 0x4c, 0, 1, 0, 1, 0x18, 0, 0, 0, 1, 0, 0, 0, 1, 0, 0, 0, 4, 0, 0, 0, 0, 0, 0, 0, 9,
    0, 0, 0, 0, 0, 0x33, 0x22, 0x11]

/-- A bitmap that was kept is drawn again, whatever size the descriptor that names it has. -/
theorem named_image_returned_pixmap :
    ∃ s, run (Pixmaps.step sampleRyll) (Pixmaps.start sampleRyll 0x100000)
        [.image ⟨7, 0, 1, 1, 1⟩ onePixel] = some s ∧
      (s.images.decode sampleRyll ⟨7, 103, 0, 100, 100⟩ []).2 = some ⟨1, 1, [0x11, 0x22, 0x33, 0x80]⟩ := by
  refine ⟨_, rfl, ?_⟩
  rw [named_image_returned sampleRyll_lawful 0x100000 [.image ⟨7, 0, 1, 1, 1⟩ onePixel] _ ⟨fun _ => trivial, fun _ _ => trivial⟩
    rfl ⟨7, 103, 0, 100, 100⟩ [] rfl (by decide)]
  decide +kernel

/-- A GLZ image that came to be kept is not there when it is named, and neither is a bitmap that is
named by a descriptor of a size no desktop has; and one that a list invalidates still is. -/
theorem named_image_missing :
    (∃ s, run (Pixmaps.step sampleRyll) (Pixmaps.start sampleRyll 0x100000)
        [.image ⟨9, 102, 1, 1, 1⟩ oneGlzPixel] = some s ∧
      s.named 9 = some ⟨1, 1, [0x11, 0x22, 0x33, 0xff]⟩ ∧
      (s.images.decode sampleRyll ⟨9, 103, 0, 1, 1⟩ []).2 = none) ∧
    (∃ s, run (Pixmaps.step sampleRyll) (Pixmaps.start sampleRyll 0x100000)
        [.image ⟨7, 0, 1, 1, 1⟩ onePixel] = some s ∧
      s.named 7 = some ⟨1, 1, [0x11, 0x22, 0x33, 0x80]⟩ ∧
      (s.images.decode sampleRyll ⟨7, 103, 0, 10000, 10000⟩ []).2 = none) ∧
    ∃ s, run (Pixmaps.step sampleRyll) (Pixmaps.start sampleRyll 0x100000)
        [.image ⟨7, 0, 1, 1, 1⟩ onePixel, .invalList [7]] = some s ∧
      s.named 7 = none ∧
      (s.images.decode sampleRyll ⟨7, 103, 0, 1, 1⟩ []).2 = some ⟨1, 1, [0x11, 0x22, 0x33, 0x80]⟩ := by
  refine ⟨⟨_, rfl, ?_, ?_⟩, ⟨_, rfl, ?_, ?_⟩, ⟨_, rfl, ?_, ?_⟩⟩ <;> decide +kernel

end Vento.Spice
