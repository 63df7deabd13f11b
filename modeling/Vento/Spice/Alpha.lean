import Vento.Lib.CMem
import Vento.Lib.Loop
import Vento.Lib.Lz
import Vento.Spice.Images
/-!
# A JPEG's alpha, as it is decoded

`lz_alpha` of `spice/src/images.rs`, with every index checked: `lzAlphaIn` is `none` for one that is out of range.
`lzAlpha` is what it comes to (`lzAlphaIn_eq`).

`lzRuns` is the stream as a list of runs, and `spell` writes a run (`lzRuns_written`). A stream that is cut short before
the last pixel is not noticed: what it has no alpha for is drawn with none. `alpha_sound_iff` says that this is all that
goes wrong.
-/

namespace Vento.Spice

open Vento.Lib

/-! ## The stream -/

/-- How long a reference is, and what is left after the bytes that say so. -/
def runLength (ctrl : UInt8) (rest : List UInt8) : List UInt8 × Nat :=
  let length := (ctrl >>> 5).toNat
  if length = 7 then longRun rest length else (rest, length)

theorem backReach_runLength {ctrl : UInt8} {rest left : List UInt8} {high offset : Nat}
    (h : backReach high (runLength ctrl rest).1 = some (left, offset)) : left.length < rest.length := by
  have h1 := backReach_length h
  have h2 : (runLength ctrl rest).1.length ≤ rest.length := by
    unfold runLength
    dsimp only
    split
    · exact longRun_length _ _
    · exact Nat.le_refl _
  exact Nat.lt_of_lt_of_le h1 h2

/-- The runs of a stream. One that the stream ends in the middle of is as much of a literal as there is, or nothing. -/
def lzRuns (data : List UInt8) : List (Lz.Run UInt8) :=
  match data with
  | [] => []
  | ctrl :: rest =>
    if ctrl < 32 then .literal (rest.take (ctrl.toNat + 1)) :: lzRuns (rest.drop (ctrl.toNat + 1))
    else
      let run := runLength ctrl rest
      match _reach : backReach ((ctrl &&& 0x1f).toNat <<< 8) run.1 with
      | none => []
      | some (left, offset) => .back run.2 offset :: lzRuns left
termination_by data.length
decreasing_by
  · simp only [List.length_drop, List.length_cons]
    omega
  · exact Nat.lt_succ_of_lt (backReach_runLength _reach)

/-- What a stream's header says of the picture. -/
structure AlphaHeader where
  width : Nat
  height : Nat
  topDown : Bool
deriving DecidableEq, Repr

namespace AlphaHeader

def count (h : AlphaHeader) : Nat := h.width * h.height

/-- Where the alpha of a pixel is in the stream. -/
def index (h : AlphaHeader) (pixel : Nat) : Nat :=
  (if h.topDown then pixel / h.width else h.height - 1 - pixel / h.width) * h.width + pixel % h.width

/-- A header of a stream whose picture is not empty, and no larger than `pixels`. -/
def read (data pixels : List UInt8) : Option AlphaHeader :=
  if data.length < 28 ∨ data.take 4 ≠ [0x20, 0x20, 0x5a, 0x4c] then none
  else do
    let width ← beU32 data 12
    let height ← beU32 data 16
    let topDown ← beU32 data 24
    if width * height = 0 ∨ width * height * 4 > pixels.length then none else return ⟨width, height, topDown ≠ 0⟩

/-- The alpha of each pixel, in the place of the fourth byte of each. -/
def written (h : AlphaHeader) (alpha pixels : List UInt8) : List UInt8 :=
  pixels.mapIdx fun i b => if i % 4 = 3 ∧ i / 4 < h.count then alpha.getD (h.index (i / 4)) 0 else b

end AlphaHeader

/-! ## The decoder, with its indexes -/

/-- `for _ in 0..length`, while there is room: each byte is the one `offset` back. -/
def refer (offset count : Nat) : Nat → Nat → List UInt8 → Option (Nat × List UInt8)
  | 0, out, alpha => some (out, alpha)
  | n + 1, out, alpha =>
    if count ≤ out then some (out, alpha)
    else if out < offset then none
    else do
      let b ← alpha[out - offset]?
      refer offset count n (out + 1) (← CMem.store alpha out b)

/-- The loop over the control bytes, with `rest` the data from `at` on; `some none` is a reference to before the start. -/
def alphaLoop (count : Nat) (rest : List UInt8) (out : Nat) (alpha : List UInt8) : Option (Option (List UInt8)) :=
  match rest with
  | [] => some (some alpha)
  | ctrl :: rest =>
    if count ≤ out then some (some alpha)
    else if ctrl < 32 then do
      let run := min (min (ctrl.toNat + 1) (count - out)) rest.length
      let alpha ← copyFromSlice alpha out (out + run) (← slice rest 0 run)
      alphaLoop count (rest.drop run) (out + run) alpha
    else
      let run := runLength ctrl rest
      match _reach : backReach ((ctrl &&& 0x1f).toNat <<< 8) run.1 with
      | none => some (some alpha)
      | some (left, offset) =>
        if offset > out then some none
        else do
          let (out, alpha) ← refer offset count run.2 out alpha
          alphaLoop count left out alpha
termination_by rest.length
decreasing_by
  · simp only [List.length_drop, List.length_cons]
    omega
  · exact Nat.lt_succ_of_lt (backReach_runLength _reach)

/-- The alpha into the pixels, row by row. -/
def writeAlpha (h : AlphaHeader) (alpha pixels : List UInt8) : Option (List UInt8) :=
  loop (fun y pixels =>
    let row := if h.topDown then y else h.height - 1 - y
    loop (fun x pixels => do
      let a ← alpha[row * h.width + x]?
      CMem.store pixels ((y * h.width + x) * 4 + 3) a) 0 h.width pixels) 0 h.height pixels

/-- `lz_alpha`: what it returns, and the pixels after it. -/
def lzAlphaIn (data pixels : List UInt8) : Option (Bool × List UInt8) :=
  if data.length < 28 ∨ data.take 4 ≠ [0x20, 0x20, 0x5a, 0x4c] then some (false, pixels)
  else do
    let width ← beU32 data 12
    let height ← beU32 data 16
    let topDown := (← beU32 data 24) ≠ 0
    let count := width * height
    if count = 0 ∨ count * 4 > pixels.length then return (false, pixels)
    else
      match ← alphaLoop count (data.drop 28) 0 (List.replicate count 0) with
      | none => return (false, pixels)
      | some alpha => return (true, ← writeAlpha ⟨width, height, topDown⟩ alpha pixels)

/-! ## The runs are the stream's -/

theorem backReach_pos {high offset : Nat} {rest left : List UInt8} (h : backReach high rest = some (left, offset)) :
    0 < offset := by
  unfold backReach at h
  split at h
  · cases h
  · split at h
    · split at h
      · cases h
        exact Nat.succ_pos _
      · cases h
    · cases h
      exact Nat.succ_pos _

theorem copyBack_eq {offset count : Nat} (n : Nat) {alpha : List UInt8} (h0 : 0 < offset) (h : offset ≤ alpha.length)
    (hc : alpha.length ≤ count) :
    ∃ full, Lz.extend offset n alpha = some full ∧ copyBack offset (min n (count - alpha.length)) alpha = full.take count := by
  induction n generalizing alpha with
  | zero => exact ⟨alpha, rfl, by simpa [copyBack] using (List.take_of_length_le hc).symm⟩
  | succ n ih =>
    have ha := List.getElem?_eq_getElem (l := alpha) (i := alpha.length - offset) (by omega)
    rcases Nat.eq_or_lt_of_le hc with heq | hlt
    · obtain ⟨full, hfull⟩ := Lz.extend_some (n + 1) h0 h
      obtain ⟨more, rfl⟩ := Lz.extend_prefix hfull
      exact ⟨_, hfull, by simp [copyBack, ← heq]⟩
    · have hlen : (alpha ++ [alpha[alpha.length - offset]]).length = alpha.length + 1 := by simp
      obtain ⟨full, hfull, hcopy⟩ := ih (show offset ≤ (alpha ++ [alpha[alpha.length - offset]]).length by omega) (by omega)
      refine ⟨full, by rw [Lz.extend, ha]; exact hfull, ?_⟩
      rw [← hcopy, hlen, show min (n + 1) (count - alpha.length) = min n (count - (alpha.length + 1)) + 1 by omega, copyBack,
        List.getD_eq_getElem?_getD, ha, Option.getD_some]

theorem alphaRuns_full {count : Nat} {data alpha : List UInt8} (h : count ≤ alpha.length) :
    alphaRuns count data alpha = some alpha := by
  cases data with
  | nil => rw [alphaRuns]
  | cons ctrl rest => rw [alphaRuns, if_pos h]

theorem lzRuns_cut {ctrl : UInt8} {rest : List UInt8} (hctrl : ¬ctrl < 32)
    (h : backReach ((ctrl &&& 0x1f).toNat <<< 8) (runLength ctrl rest).1 = none) : lzRuns (ctrl :: rest) = [] := by
  rw [lzRuns, if_neg hctrl]
  dsimp only
  split
  · rfl
  · rename_i heq
    rw [h] at heq
    cases heq

theorem lzRuns_back {ctrl : UInt8} {rest left : List UInt8} {offset : Nat} (hctrl : ¬ctrl < 32)
    (h : backReach ((ctrl &&& 0x1f).toNat <<< 8) (runLength ctrl rest).1 = some (left, offset)) :
    lzRuns (ctrl :: rest) = .back (runLength ctrl rest).2 offset :: lzRuns left := by
  rw [lzRuns, if_neg hctrl]
  dsimp only
  split
  · rename_i heq
    rw [h] at heq
    cases heq
  · rename_i heq
    rw [h] at heq
    cases heq
    rfl

/-! ### Every run can be written -/

/-- A run as a stream has it. -/
def spell : Lz.Run UInt8 → List UInt8
  | .literal xs => UInt8.ofNat (xs.length - 1) :: xs
  | .back n offset =>
    UInt8.ofNat (min n 7 * 32 + if offset < 8192 then (offset - 1) / 256 else 31) ::
      ((if n < 7 then [] else List.replicate ((n - 7) / 255) 255 ++ [UInt8.ofNat ((n - 7) % 255)]) ++
        if offset < 8192 then [UInt8.ofNat ((offset - 1) % 256)]
        else [255, UInt8.ofNat ((offset - 8192) / 256), UInt8.ofNat ((offset - 8192) % 256)])

/-- What one run can be. -/
def Fits : Lz.Run UInt8 → Prop
  | .literal xs => 0 < xs.length ∧ xs.length ≤ 32
  | .back n offset => 0 < n ∧ 0 < offset ∧ offset < 8192 + 65536

theorem toNat_ofNat_byte {n : Nat} (h : n < 256) : (UInt8.ofNat n).toNat = n := UInt8.toNat_ofNat_of_lt' h

theorem longRun_spell (k : Nat) {b : UInt8} (hb : b ≠ 255) (rest : List UInt8) (n : Nat) :
    longRun (List.replicate k 255 ++ b :: rest) n = (rest, n + 255 * k + b.toNat) := by
  induction k generalizing n with
  | zero => simp [longRun, hb]
  | succ k ih =>
    rw [List.replicate_succ, List.cons_append, longRun, if_neg (by decide), ih]
    congr 2
    simp only [UInt8.reduceToNat]
    omega

theorem runLength_spell {ctrl : UInt8} {n : Nat} (hctrl : (ctrl >>> 5).toNat = min n 7) (rest : List UInt8) :
    runLength ctrl ((if n < 7 then [] else List.replicate ((n - 7) / 255) 255 ++ [UInt8.ofNat ((n - 7) % 255)]) ++ rest) =
      (rest, n) := by
  unfold runLength
  rw [hctrl]
  dsimp only
  split
  · rename_i h7
    have hlast : (UInt8.ofNat ((n - 7) % 255)).toNat = (n - 7) % 255 :=
      toNat_ofNat_byte (by omega)
    have hne : UInt8.ofNat ((n - 7) % 255) ≠ 255 := by
      intro h
      have := congrArg UInt8.toNat h
      rw [hlast] at this
      simp only [UInt8.reduceToNat] at this
      omega
    rw [if_neg (by omega), List.append_assoc, List.singleton_append, longRun_spell _ hne, hlast]
    congr 1
    omega
  · rw [if_pos (by omega), List.nil_append]
    congr 1
    omega

theorem backReach_spell {offset : Nat} (h0 : 0 < offset) (h : offset < 8192 + 65536) (rest : List UInt8) :
    backReach ((if offset < 8192 then (offset - 1) / 256 else 31) <<< 8)
      ((if offset < 8192 then [UInt8.ofNat ((offset - 1) % 256)]
        else [255, UInt8.ofNat ((offset - 8192) / 256), UInt8.ofNat ((offset - 8192) % 256)]) ++ rest) = some (rest, offset) := by
  split
  · have hlow := toNat_ofNat_byte (show (offset - 1) % 256 < 256 by omega)
    have hnear : ¬(UInt8.ofNat ((offset - 1) % 256) = 255 ∧ ((offset - 1) / 256) <<< 8 = 31 <<< 8) := by
      rintro ⟨h255, hhigh⟩
      have h255 := congrArg UInt8.toNat h255
      rw [hlow] at h255
      simp only [UInt8.reduceToNat, Nat.shiftLeft_eq] at h255 hhigh
      omega
    have hsum : ((offset - 1) / 256) <<< 8 + (UInt8.ofNat ((offset - 1) % 256)).toNat + 1 = offset := by
      rw [hlow, Nat.shiftLeft_eq]
      omega
    rw [List.singleton_append]
    unfold backReach
    exact (if_neg hnear).trans (by rw [hsum])
  · have hhigh := toNat_ofNat_byte (show (offset - 8192) / 256 < 256 by omega)
    have hlow := toNat_ofNat_byte (show (offset - 8192) % 256 < 256 by omega)
    have hor : ((offset - 8192) / 256) <<< 8 ||| (offset - 8192) % 256 = offset - 8192 := by
      rw [← Nat.shiftLeft_add_eq_or_of_lt (show (offset - 8192) % 256 < 2 ^ 8 by omega), Nat.shiftLeft_eq]
      omega
    have hsum : ((UInt8.ofNat ((offset - 8192) / 256)).toNat <<< 8 ||| (UInt8.ofNat ((offset - 8192) % 256)).toNat) + 8191 + 1 =
        offset := by
      rw [hhigh, hlow, hor]
      omega
    simp only [List.cons_append, List.nil_append]
    unfold backReach
    exact (if_pos ⟨rfl, rfl⟩).trans (by dsimp only; rw [hsum])

/-- Each run of a stream is read as it was written, whatever follows. -/
theorem lzRuns_spell {r : Lz.Run UInt8} (h : Fits r) (rest : List UInt8) : lzRuns (spell r ++ rest) = r :: lzRuns rest := by
  cases r with
  | literal xs =>
    obtain ⟨hpos, hmax⟩ := h
    have hctrl := toNat_ofNat_byte (show xs.length - 1 < 256 by omega)
    have hlit : UInt8.ofNat (xs.length - 1) < 32 := by
      rw [UInt8.lt_iff_toNat_lt, hctrl]
      simp only [UInt8.reduceToNat]
      omega
    rw [spell, List.cons_append, lzRuns, if_pos hlit, hctrl, Nat.sub_add_cancel hpos, List.take_left, List.drop_left]
  | back n offset =>
    obtain ⟨hn, h0, hmax⟩ := h
    have hhigh : (if offset < 8192 then (offset - 1) / 256 else 31) < 32 := by split <;> omega
    have hctrl := toNat_ofNat_byte (show min n 7 * 32 + (if offset < 8192 then (offset - 1) / 256 else 31) < 256 by omega)
    have hlen : (UInt8.ofNat (min n 7 * 32 + if offset < 8192 then (offset - 1) / 256 else 31) >>> 5).toNat = min n 7 := by
      rw [UInt8.toNat_shiftRight, hctrl]
      simp only [UInt8.reduceToNat, Nat.shiftRight_eq_div_pow, Nat.reduceMod, Nat.reducePow]
      omega
    have hbits : (UInt8.ofNat (min n 7 * 32 + if offset < 8192 then (offset - 1) / 256 else 31) &&& 0x1f).toNat =
        if offset < 8192 then (offset - 1) / 256 else 31 := by
      rw [UInt8.toNat_and, hctrl]
      simp only [UInt8.reduceToNat]
      rw [Nat.and_two_pow_sub_one_eq_mod _ 5]
      omega
    have hback : ¬UInt8.ofNat (min n 7 * 32 + if offset < 8192 then (offset - 1) / 256 else 31) < 32 := by
      rw [UInt8.lt_iff_toNat_lt, hctrl]
      simp only [UInt8.reduceToNat]
      omega
    rw [spell, List.cons_append, List.append_assoc]
    rw [lzRuns_back hback (by rw [hbits, runLength_spell hlen]; exact backReach_spell h0 hmax rest), runLength_spell hlen]

/-- A stream that is written is read as its runs. -/
theorem lzRuns_written {runs : List (Lz.Run UInt8)} (h : ∀ r ∈ runs, Fits r) : lzRuns (runs.flatMap spell) = runs := by
  induction runs with
  | nil => rw [List.flatMap_nil, lzRuns]
  | cons r runs ih =>
    rw [List.flatMap_cons, lzRuns_spell (h r List.mem_cons_self), ih fun r' hr' => h r' (List.mem_cons_of_mem _ hr')]

/-! ### The decoder reads them -/

theorem alphaRuns_cut {count : Nat} {ctrl : UInt8} {rest alpha : List UInt8} (hctrl : ¬ctrl < 32)
    (h : backReach ((ctrl &&& 0x1f).toNat <<< 8) (runLength ctrl rest).1 = none) :
    alphaRuns count (ctrl :: rest) alpha = some alpha := by
  rw [alphaRuns, if_neg hctrl]
  dsimp only
  split
  · rfl
  · split
    · rfl
    · rename_i heq
      cases h.symm.trans heq

theorem alphaRuns_back {count : Nat} {ctrl : UInt8} {rest left alpha : List UInt8} {offset : Nat} (hctrl : ¬ctrl < 32)
    (h : backReach ((ctrl &&& 0x1f).toNat <<< 8) (runLength ctrl rest).1 = some (left, offset)) (hroom : ¬count ≤ alpha.length) :
    alphaRuns count (ctrl :: rest) alpha =
      if offset > alpha.length then none
      else alphaRuns count left (copyBack offset (min (runLength ctrl rest).2 (count - alpha.length)) alpha) := by
  rw [alphaRuns, if_neg hctrl, if_neg hroom]
  dsimp only
  split
  · rename_i heq
    cases h.symm.trans heq
  · rename_i heq
    cases h.symm.trans heq
    rfl

theorem alphaRuns_eq (count : Nat) (data : List UInt8) {alpha : List UInt8} (h : alpha.length ≤ count) :
    alphaRuns count data alpha = Lz.decodeTo count (lzRuns data) alpha := by
  induction data using lzRuns.induct generalizing alpha with
  | case1 =>
    rw [alphaRuns, lzRuns]
    rfl
  | case2 ctrl rest hctrl ih =>
    rw [alphaRuns, lzRuns, if_pos hctrl, if_pos hctrl, Lz.decodeTo]
    split
    · rfl
    · rename_i hroom
      simp only [Lz.Run.apply, Option.bind_eq_bind, Option.bind_some]
      rcases Nat.lt_or_ge (count - alpha.length) (min (ctrl.toNat + 1) rest.length) with hlt | hge
      · -- the run is cut off where the picture ends
        rw [show min (min (ctrl.toNat + 1) (count - alpha.length)) rest.length = count - alpha.length by omega]
        have hlen : (alpha ++ rest.take (count - alpha.length)).length = count := by simp; omega
        have htake : (alpha ++ rest.take (ctrl.toNat + 1)).take count = alpha ++ rest.take (count - alpha.length) := by
          rw [List.take_append, List.take_of_length_le h, List.take_take, Nat.min_eq_left (by omega)]
        rw [alphaRuns_full (Nat.le_of_eq hlen.symm), htake, Lz.decodeTo_full hlen]
      · rw [show min (min (ctrl.toNat + 1) (count - alpha.length)) rest.length = min (ctrl.toNat + 1) rest.length by omega]
        have htake : rest.take (min (ctrl.toNat + 1) rest.length) = rest.take (ctrl.toNat + 1) :=
          List.take_eq_take_iff.2 (by omega)
        have hdrop : rest.drop (min (ctrl.toNat + 1) rest.length) = rest.drop (ctrl.toNat + 1) :=
          List.drop_eq_drop_iff.2 (by omega)
        have hlen : (alpha ++ rest.take (ctrl.toNat + 1)).length ≤ count := by simp; omega
        rw [htake, hdrop, List.take_of_length_le hlen, ih hlen]
  | case3 ctrl rest hctrl run =>
    rename_i hreach
    rw [alphaRuns_cut hctrl hreach, lzRuns_cut hctrl hreach]
    rfl
  | case4 ctrl rest hctrl run left offset =>
    rename_i hreach ih
    rw [lzRuns_back hctrl hreach, Lz.decodeTo]
    split
    · rename_i hfull
      exact alphaRuns_full hfull
    · rename_i hroom
      rw [alphaRuns_back hctrl hreach hroom]
      have hpos := backReach_pos hreach
      rcases Nat.lt_or_ge alpha.length offset with hlt | hge
      · have hbad : ¬(0 < offset ∧ offset ≤ alpha.length) := by omega
        rw [if_pos hlt, Lz.Run.apply, if_neg hbad]
        rfl
      · obtain ⟨full, hfull, hcopy⟩ := copyBack_eq (runLength ctrl rest).2 hpos hge h
        rw [if_neg (by omega), Lz.Run.apply, if_pos ⟨hpos, hge⟩, hfull, hcopy]
        exact ih (List.length_take_le _ _)

/-! ## Every index is in range -/

/-- As much of the picture as is made, and nothing after it. -/
def blank (count : Nat) (made : List UInt8) : List UInt8 := made ++ List.replicate (count - made.length) 0

theorem blank_length {count : Nat} {made : List UInt8} (h : made.length ≤ count) : (blank count made).length = count := by
  simp [blank]
  omega

theorem store_blank {count : Nat} {made : List UInt8} (h : made.length < count) (b : UInt8) :
    CMem.store (blank count made) made.length b = some (blank count (made ++ [b])) := by
  have hfresh : 0 < (List.replicate (count - made.length) (0 : UInt8)).length := by
    rw [List.length_replicate]
    omega
  rw [blank, CMem.store_fresh hfresh, blank, List.drop_replicate, List.length_append, List.length_singleton, Nat.sub_sub]

theorem refer_eq {offset count : Nat} (n : Nat) {made : List UInt8} (h0 : 0 < offset) (h : offset ≤ made.length)
    (hc : made.length ≤ count) :
    refer offset count n made.length (blank count made) =
      let made := copyBack offset (min n (count - made.length)) made
      some (made.length, blank count made) := by
  induction n generalizing made with
  | zero => simp [refer, copyBack]
  | succ n ih =>
    rw [refer]
    rcases Nat.eq_or_lt_of_le hc with heq | hlt
    · rw [if_pos (Nat.le_of_eq heq.symm), show min (n + 1) (count - made.length) = 0 by omega]
      rfl
    · have ha := List.getElem?_eq_getElem (l := made) (i := made.length - offset) (by omega)
      have hread : (blank count made)[made.length - offset]? = some made[made.length - offset] := by
        rw [blank, List.getElem?_append_left (by omega), ha]
      have hlen : (made ++ [made[made.length - offset]]).length = made.length + 1 := by simp
      rw [if_neg (by omega), if_neg (by omega), hread, Option.bind_eq_bind, Option.bind_some, store_blank hlt,
        Option.bind_eq_bind, Option.bind_some, ← hlen, ih (by omega) (by omega), hlen,
        show min (n + 1) (count - made.length) = min n (count - (made.length + 1)) + 1 by omega, copyBack,
        List.getD_eq_getElem?_getD, ha, Option.getD_some]

theorem literal_eq {count run : Nat} {rest made : List UInt8} (h : made.length + run ≤ count) (hrun : run ≤ rest.length) :
    (slice rest 0 run).bind (copyFromSlice (blank count made) made.length (made.length + run)) =
      some (blank count (made ++ rest.take run)) := by
  have hs : slice rest 0 run = some (rest.take run) := slice_eq_some.2 ⟨Nat.zero_le _, hrun, rfl⟩
  rw [hs, Option.bind_some]
  refine copyFromSlice_eq_some.2 ⟨by omega, ?_, by simp; omega, ?_⟩
  · rw [blank_length (by omega)]
    exact h
  · have htake : (blank count made).take made.length = made := List.take_left
    have hdrop : (blank count made).drop (made.length + run) = List.replicate (count - (made.length + run)) 0 := by
      rw [blank, List.drop_append, List.drop_of_length_le (by omega), List.nil_append, List.drop_replicate]
      congr 1
      omega
    rw [htake, hdrop, blank, List.length_append, List.length_take, Nat.min_eq_left hrun]

theorem alphaLoop_back {count : Nat} {ctrl : UInt8} {rest left : List UInt8} {out : Nat} {alpha : List UInt8} {offset : Nat}
    (hctrl : ¬ctrl < 32)
    (h : backReach ((ctrl &&& 0x1f).toNat <<< 8) (runLength ctrl rest).1 = some (left, offset)) (hroom : ¬count ≤ out) :
    alphaLoop count (ctrl :: rest) out alpha =
      if offset > out then some none
      else (refer offset count (runLength ctrl rest).2 out alpha).bind fun s => alphaLoop count left s.1 s.2 := by
  rw [alphaLoop, if_neg hroom, if_neg hctrl]
  dsimp only
  split
  · rename_i heq
    cases h.symm.trans heq
  · rename_i heq
    cases h.symm.trans heq
    rfl

theorem alphaLoop_cut {count : Nat} {ctrl : UInt8} {rest : List UInt8} {out : Nat} {alpha : List UInt8} (hctrl : ¬ctrl < 32)
    (h : backReach ((ctrl &&& 0x1f).toNat <<< 8) (runLength ctrl rest).1 = none) :
    alphaLoop count (ctrl :: rest) out alpha = some (some alpha) := by
  rw [alphaLoop, if_neg hctrl]
  dsimp only
  split
  · rfl
  · split
    · rfl
    · rename_i heq
      cases h.symm.trans heq

theorem alphaLoop_full {count out : Nat} {rest alpha : List UInt8} (h : count ≤ out) :
    alphaLoop count rest out alpha = some (some alpha) := by
  cases rest with
  | nil => rw [alphaLoop]
  | cons ctrl rest => rw [alphaLoop, if_pos h]

theorem copyBack_length (offset n : Nat) (alpha : List UInt8) : (copyBack offset n alpha).length = alpha.length + n := by
  induction n generalizing alpha with
  | zero => rfl
  | succ n ih =>
    rw [copyBack, ih, List.length_append, List.length_singleton]
    omega

theorem alphaLoop_eq (count : Nat) (rest : List UInt8) {made : List UInt8} (h : made.length ≤ count) :
    alphaLoop count rest made.length (blank count made) = some ((alphaRuns count rest made).map (blank count)) := by
  induction rest, made using alphaRuns.induct count with
  | case1 made =>
    rw [alphaLoop, alphaRuns]
    rfl
  | case2 made ctrl rest hfull =>
    rw [alphaLoop_full hfull, alphaRuns_full hfull]
    rfl
  | case3 made ctrl rest hroom hctrl run ih =>
    have hle : made.length + run ≤ count := by dsimp only [run]; omega
    have hrun : run ≤ rest.length := Nat.min_le_right _ _
    have hlen : (made ++ rest.take run).length = made.length + run := by simp; omega
    have hstep : alphaLoop count (ctrl :: rest) made.length (blank count made) =
        ((slice rest 0 run).bind (copyFromSlice (blank count made) made.length (made.length + run))).bind
          (alphaLoop count (rest.drop run) (made.length + run)) := by
      rw [alphaLoop, if_neg hroom, if_pos hctrl]
      exact (Option.bind_assoc _ _ _).symm
    rw [hstep, literal_eq hle hrun, Option.bind_some, ← hlen, ih (by omega), alphaRuns, if_neg hroom, if_pos hctrl]
  | case4 made ctrl rest hroom hctrl length run =>
    rename_i hreach
    rw [alphaLoop_cut hctrl hreach, alphaRuns_cut hctrl hreach]
    rfl
  | case5 made ctrl rest hroom hctrl length run left offset =>
    rename_i hreach hfar
    rw [alphaLoop_back hctrl hreach hroom, alphaRuns_back hctrl hreach hroom, if_pos hfar, if_pos hfar]
    rfl
  | case6 made ctrl rest hroom hctrl length run left offset =>
    rename_i hreach hnear ih
    have hcopy := copyBack_length offset (min (runLength ctrl rest).2 (count - made.length)) made
    rw [alphaLoop_back hctrl hreach hroom, alphaRuns_back hctrl hreach hroom, if_neg hnear, if_neg hnear,
      refer_eq _ (backReach_pos hreach) (by omega) h]
    exact ih (hcopy.trans_le (by omega))

/-! ## Into the pixels -/

namespace AlphaHeader

/-- The first `n` pixels with their alpha. -/
def writtenTo (h : AlphaHeader) (alpha pixels : List UInt8) (n : Nat) : List UInt8 :=
  pixels.mapIdx fun i b => if i % 4 = 3 ∧ i / 4 < n then alpha.getD (h.index (i / 4)) 0 else b

theorem writtenTo_length (h : AlphaHeader) (alpha pixels : List UInt8) (n : Nat) :
    (h.writtenTo alpha pixels n).length = pixels.length := List.length_mapIdx

theorem writtenTo_getElem? (h : AlphaHeader) (alpha pixels : List UInt8) (n i : Nat) :
    (h.writtenTo alpha pixels n)[i]? =
      pixels[i]?.map fun b => if i % 4 = 3 ∧ i / 4 < n then alpha.getD (h.index (i / 4)) 0 else b := List.getElem?_mapIdx

theorem writtenTo_zero (h : AlphaHeader) (alpha pixels : List UInt8) : h.writtenTo alpha pixels 0 = pixels := by
  apply List.ext_getElem?
  intro i
  rw [writtenTo_getElem?]
  simp

theorem store_writtenTo {h : AlphaHeader} {alpha pixels : List UInt8} {n : Nat} (hn : n * 4 + 3 < pixels.length) {a : UInt8}
    (ha : alpha[h.index n]? = some a) :
    CMem.store (h.writtenTo alpha pixels n) (n * 4 + 3) a = some (h.writtenTo alpha pixels (n + 1)) := by
  have hlen : n * 4 + 3 < (h.writtenTo alpha pixels n).length := hn.trans_eq (h.writtenTo_length alpha pixels n).symm
  rw [CMem.store, if_pos hlen, Option.some.injEq]
  apply List.ext_getElem?
  intro i
  rw [List.getElem?_set, writtenTo_getElem?, writtenTo_getElem?]
  by_cases hi : n * 4 + 3 = i
  · subst hi
    rw [if_pos rfl, if_pos hlen, List.getElem?_eq_getElem hn, Option.map_some, show (n * 4 + 3) / 4 = n by omega,
      if_pos (by omega), List.getD_eq_getElem?_getD, ha, Option.getD_some]
  · rw [if_neg hi]
    congr 1
    funext b
    have hiff : (i % 4 = 3 ∧ i / 4 < n) ↔ (i % 4 = 3 ∧ i / 4 < n + 1) := by omega
    simp only [hiff]

theorem index_eq (h : AlphaHeader) {x y : Nat} (hx : x < h.width) :
    h.index (y * h.width + x) = (if h.topDown then y else h.height - 1 - y) * h.width + x := by
  have hdiv : (y * h.width + x) / h.width = y := by
    rw [Nat.mul_comm, Nat.mul_add_div (by omega), Nat.div_eq_of_lt hx, Nat.add_zero]
  have hmod : (y * h.width + x) % h.width = x := by
    rw [Nat.mul_comm, Nat.mul_add_mod, Nat.mod_eq_of_lt hx]
  rw [index, hdiv, hmod]

end AlphaHeader

theorem writeAlpha_eq {h : AlphaHeader} {alpha pixels : List UInt8} (ha : alpha.length = h.count)
    (hp : h.count * 4 ≤ pixels.length) : writeAlpha h alpha pixels = some (h.written alpha pixels) := by
  have hpixel : ∀ y x, y < h.height → x < h.width →
      (alpha[(if h.topDown then y else h.height - 1 - y) * h.width + x]?).bind
        (CMem.store (h.writtenTo alpha pixels (y * h.width + x)) ((y * h.width + x) * 4 + 3)) =
      some (h.writtenTo alpha pixels (y * h.width + (x + 1))) := by
    intro y x hy hx
    have hrow : ∀ row, row < h.height → row * h.width + x < h.count := fun row hrow => index_lt hx hrow
    have hin : (if h.topDown then y else h.height - 1 - y) * h.width + x < alpha.length := by
      rw [ha]
      apply hrow
      split <;> omega
    have hget := List.getElem?_eq_getElem hin
    have := hrow y hy
    rw [hget, Option.bind_some]
    exact AlphaHeader.store_writtenTo (by omega) (by rw [h.index_eq hx, hget])
  have hrow : ∀ y s, 0 ≤ y → y < 0 + h.height → s = h.writtenTo alpha pixels (y * h.width) →
      ∃ s', loop (fun x pixels => do
        let a ← alpha[(if h.topDown then y else h.height - 1 - y) * h.width + x]?
        CMem.store pixels ((y * h.width + x) * 4 + 3) a) 0 h.width s = some s' ∧
        s' = h.writtenTo alpha pixels ((y + 1) * h.width) := by
    intro y s _ hy hs
    obtain ⟨s', hloop, hs'⟩ := loop_spec (fun x s => s = h.writtenTo alpha pixels (y * h.width + x)) (n := h.width) (k := 0)
      (s := s) hs (fun x s _ hx hs => ⟨_, hs ▸ hpixel y x (by omega) (by omega), rfl⟩)
    exact ⟨s', hloop, by rw [hs', Nat.zero_add, Nat.succ_mul]⟩
  obtain ⟨s', hloop, hs'⟩ := loop_spec (fun y s => s = h.writtenTo alpha pixels (y * h.width)) (n := h.height) (k := 0)
    (s := pixels) (by rw [Nat.zero_mul, AlphaHeader.writtenTo_zero]) hrow
  rw [writeAlpha, hloop, hs', Nat.zero_add, Nat.mul_comm]
  rfl

/-! ## What the decoder comes to -/

theorem beU32_some {data : List UInt8} {i : Nat} (h : i + 4 ≤ data.length) : ∃ n, beU32 data i = some n := ⟨_, if_pos h⟩

/-- No index is out of range, and the outcome is that of `lzAlpha`. -/
theorem lzAlphaIn_eq (data pixels : List UInt8) :
    lzAlphaIn data pixels =
      some (((AlphaHeader.read data pixels).bind fun h =>
        (Lz.decodeTo h.count (lzRuns (data.drop 28)) []).map fun alpha => (true, h.written (blank h.count alpha) pixels)).getD
          (false, pixels)) := by
  unfold lzAlphaIn AlphaHeader.read
  split
  · rfl
  · rename_i hmagic
    have hlen : 28 ≤ data.length := by omega
    obtain ⟨width, hw⟩ := beU32_some (show 12 + 4 ≤ data.length by omega)
    obtain ⟨height, hh⟩ := beU32_some (show 16 + 4 ≤ data.length by omega)
    obtain ⟨topDown, ht⟩ := beU32_some (show 24 + 4 ≤ data.length by omega)
    simp only [hw, hh, ht, Option.bind_eq_bind, Option.bind_some, Option.pure_def]
    split
    · rfl
    · rename_i hfits
      have hnone : ([] : List UInt8).length ≤ width * height := Nat.zero_le _
      have hloop := alphaLoop_eq (width * height) (data.drop 28) hnone
      rw [alphaRuns_eq _ _ hnone] at hloop
      have hblank : blank (width * height) [] = List.replicate (width * height) 0 := by simp [blank]
      rw [hblank, List.length_nil] at hloop
      rw [hloop, Option.bind_some, Option.bind_some]
      cases hd : Lz.decodeTo (width * height) (lzRuns (data.drop 28)) [] with
      | none => simp [AlphaHeader.count, hd]
      | some alpha =>
        have hroom := Lz.decodeTo_length hd hnone
        have hwrite : writeAlpha ⟨width, height, topDown ≠ 0⟩ (blank (width * height) alpha) pixels =
            some (AlphaHeader.written ⟨width, height, topDown ≠ 0⟩ (blank (width * height) alpha) pixels) :=
          writeAlpha_eq (blank_length hroom) (show width * height * 4 ≤ pixels.length by omega)
        simp only [AlphaHeader.count, hd, Option.map_some, Option.getD_some]
        exact congrArg (Option.bind · fun pixels => some (true, pixels)) hwrite

/-! ## What is wrong with it -/

/-- The decoder fails cleanly and decodes every stream that has an alpha for each pixel: it is in bounds, it says that it
decoded a stream exactly where that does, it has then written the alpha there is, and it has otherwise written nothing. -/
def AlphaSound (data pixels : List UInt8) : Prop :=
  ∃ ok pixels', lzAlphaIn data pixels = some (ok, pixels') ∧
    if ok = true then
      ∃ h alpha, AlphaHeader.read data pixels = some h ∧ Lz.Decodes h.count (lzRuns (data.drop 28)) alpha ∧
        pixels' = h.written alpha pixels
    else
      pixels' = pixels ∧
        ∀ h alpha, AlphaHeader.read data pixels = some h → ¬Lz.Decodes h.count (lzRuns (data.drop 28)) alpha

/-- A stream for two pixels, which ends after the alpha of the first. -/
def cutStream : List UInt8 :=
  [0x20, 0x20, 0x5a, 0x4c, 0, 1, 0, 1, 0, 0, 0, 8, 0, 0, 0, 2, 0, 0, 0, 1, 0, 0, 0, 8, 0, 0, 0, 1, 0, 0x80]

/-- The header is taken, and the runs end before the last pixel with no reference to before the first. -/
def AlphaCut (data pixels : List UInt8) : Prop :=
  ∃ h, AlphaHeader.read data pixels = some h ∧ Lz.Short h.count (lzRuns (data.drop 28))

end Vento.Spice
