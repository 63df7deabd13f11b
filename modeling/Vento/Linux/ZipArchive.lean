import Vento.Linux.Zip
/-!
# What is archived is found

An archive of files, as its entries, its central directory and its end record, with what `find` does
not read of them as it may be. `find_archive` is what `find` gives of it.
-/

namespace Vento.Linux.Zip

open Vento.Lib Checked

/-- A file to archive, and the fields of its two headers that `find` does not read. -/
structure File where
  name : List UInt8
  contents : List UInt8
  deflated : Bool
  /-- Of the local header: from the version to the size. -/
  localFields : List UInt8
  localExtra : List UInt8
  /-- Of the central one: up to the method, up to the sizes, and from the disk to the attributes. -/
  versions : List UInt8
  times : List UInt8
  attributes : List UInt8
  centralExtra : List UInt8
  comment : List UInt8
  fields : localFields.length = 22 ∧ versions.length = 6 ∧ times.length = 8 ∧ attributes.length = 8
  lengths : name.length < 65536 ∧ localExtra.length < 65536 ∧ centralExtra.length < 65536 ∧ comment.length < 65536 ∧
    contents.length < 2 ^ 32

namespace File

variable (deflate : List UInt8 → List UInt8) (f : File)

def method : Nat := if f.deflated then 8 else 0

def data : List UInt8 := if f.deflated then deflate f.contents else f.contents

def entry : Entry := ⟨f.method, f.data deflate, f.contents.length⟩

/-- The local header and the data. -/
def localBytes : List UInt8 :=
  toLeBytes 4 localSignature ++ f.localFields ++ toLeBytes 2 f.name.length ++ toLeBytes 2 f.localExtra.length ++
    f.name ++ f.localExtra ++ f.data deflate

/-- The central header, of an entry at an offset. -/
def centralBytes (offset : Nat) : List UInt8 :=
  toLeBytes 4 centralSignature ++ f.versions ++ toLeBytes 2 f.method ++ f.times ++
    toLeBytes 4 (f.data deflate).length ++ toLeBytes 4 f.contents.length ++
    toLeBytes 2 f.name.length ++ toLeBytes 2 f.centralExtra.length ++ toLeBytes 2 f.comment.length ++
    f.attributes ++ toLeBytes 4 offset ++ f.name ++ f.centralExtra ++ f.comment

end File

/-! ## Words of the file -/

theorem wordAt_eq {k at_ : Nat} (h : at_ + k < 2 ^ 64) (zip : List UInt8) :
    wordAt k zip at_ = pure ((slice zip at_ (at_ + k)).map fromLeBytes) := by
  unfold wordAt
  rw [add_eq h, pure_bind]

theorem wordAt_located {k n : Nat} {zip : List UInt8} {at_ : Nat} (h : Located zip at_ (toLeBytes k n))
    (hn : n < 256 ^ k) (hat : at_ + k < 2 ^ 64) : wordAt k zip at_ = pure (some n) := by
  rw [wordAt_eq hat, h.slice_eq (by rw [toLeBytes_length]), Option.map_some, fromLeBytes_toLeBytes hn]

theorem needWord_located {k n : Nat} {zip : List UInt8} {at_ offset : Nat}
    (h : Located zip (at_ + offset) (toLeBytes k n)) (hn : n < 256 ^ k) (hat : at_ + offset + k < 2 ^ 64) :
    needWord k zip at_ offset = pure n := by
  unfold needWord
  rw [add_eq (by omega), pure_bind, wordAt_located h hn hat, pure_bind]
  rfl

variable {deflate : List UInt8 → List UInt8} {zip : List UInt8} {f : File} {at_ offset : Nat}

theorem method_lt (f : File) : f.method < 256 ^ 2 := by
  unfold File.method
  split <;> decide

theorem centralBytes_length (f : File) (offset : Nat) :
    (f.centralBytes deflate offset).length = 46 + f.name.length + f.centralExtra.length + f.comment.length := by
  obtain ⟨-, hversions, htimes, hattributes⟩ := f.fields
  simp only [File.centralBytes, List.length_append, toLeBytes_length, hversions, htimes, hattributes]

theorem localBytes_length (f : File) :
    (f.localBytes deflate).length = 30 + f.name.length + f.localExtra.length + (f.data deflate).length := by
  simp only [File.localBytes, List.length_append, toLeBytes_length, f.fields.1]

/-- What `scan` reads of an entry of the directory. -/
structure CentralRead (deflate : List UInt8 → List UInt8) (zip : List UInt8) (f : File) (at_ offset : Nat) : Prop where
  signature : u32At zip at_ = pure (some centralSignature)
  method : needWord 2 zip at_ 10 = pure f.method
  compressed : needWord 4 zip at_ 20 = pure (f.data deflate).length
  size : needWord 4 zip at_ 24 = pure f.contents.length
  nameLen : needWord 2 zip at_ 28 = pure f.name.length
  extraLen : needWord 2 zip at_ 30 = pure f.centralExtra.length
  commentLen : needWord 2 zip at_ 32 = pure f.comment.length
  local_ : needWord 4 zip at_ 42 = pure offset
  name : slice zip (at_ + 46) (at_ + 46 + f.name.length) = some f.name

theorem central_read (h : Located zip at_ (f.centralBytes deflate offset)) (hzip : zip.length < 2 ^ 32)
    (hoffset : offset < 2 ^ 32) (hdata : (f.data deflate).length < 2 ^ 32) : CentralRead deflate zip f at_ offset := by
  have hlen := h.le_length
  rw [centralBytes_length] at hlen
  obtain ⟨-, hversions, htimes, hattributes⟩ := f.fields
  obtain ⟨hname, -, hextra, hcomment, hsize⟩ := f.lengths
  unfold File.centralBytes at h
  simp only [List.append_assoc] at h
  -- One field after the other; those not read are dropped.
  obtain ⟨c0, h⟩ := h.append
  obtain ⟨-, h⟩ := h.append
  obtain ⟨c10, h⟩ := h.append
  obtain ⟨-, h⟩ := h.append
  obtain ⟨c20, h⟩ := h.append
  obtain ⟨c24, h⟩ := h.append
  obtain ⟨c28, h⟩ := h.append
  obtain ⟨c30, h⟩ := h.append
  obtain ⟨c32, h⟩ := h.append
  obtain ⟨-, h⟩ := h.append
  obtain ⟨c42, h⟩ := h.append
  obtain ⟨c46, -⟩ := h.append
  simp only [toLeBytes_length, hversions, htimes, hattributes, Nat.add_assoc, Nat.reduceAdd]
    at c10 c20 c24 c28 c30 c32 c42 c46
  exact ⟨wordAt_located c0 (by decide) (by omega), needWord_located c10 (method_lt f) (by omega),
    needWord_located c20 hdata (by omega), needWord_located c24 hsize (by omega), needWord_located c28 hname (by omega),
    needWord_located c30 hextra (by omega), needWord_located c32 hcomment (by omega),
    needWord_located c42 hoffset (by omega), c46.slice_eq rfl⟩

/-- What `scan` reads of an entry itself. -/
structure LocalRead (deflate : List UInt8 → List UInt8) (zip : List UInt8) (f : File) (offset : Nat) : Prop where
  signature : u32At zip offset = pure (some localSignature)
  nameLen : needWord 2 zip offset 26 = pure f.name.length
  extraLen : needWord 2 zip offset 28 = pure f.localExtra.length
  data : slice zip (offset + 30 + f.name.length + f.localExtra.length)
    (offset + 30 + f.name.length + f.localExtra.length + (f.data deflate).length) = some (f.data deflate)

theorem local_read (h : Located zip offset (f.localBytes deflate)) (hzip : zip.length < 2 ^ 32) :
    LocalRead deflate zip f offset := by
  have hlen := h.le_length
  rw [localBytes_length] at hlen
  obtain ⟨hname, hextra, -⟩ := f.lengths
  unfold File.localBytes at h
  simp only [List.append_assoc] at h
  obtain ⟨l0, h⟩ := h.append
  obtain ⟨-, h⟩ := h.append
  obtain ⟨l26, h⟩ := h.append
  obtain ⟨l28, h⟩ := h.append
  obtain ⟨-, h⟩ := h.append
  obtain ⟨-, ldata⟩ := h.append
  simp only [toLeBytes_length, f.fields.1, Nat.add_assoc, Nat.reduceAdd] at l26 l28 ldata
  refine ⟨wordAt_located l0 (by decide) (by omega), needWord_located l26 hname (by omega),
    needWord_located l28 hextra (by omega), ?_⟩
  have := ldata.slice_eq rfl
  simpa only [Nat.add_assoc] using this

/-- The entry of a file is passed over for another name, and read for its own. -/
theorem scan_file (hc : Located zip at_ (f.centralBytes deflate offset))
    (hl : Located zip offset (f.localBytes deflate)) (hzip : zip.length < 2 ^ 32) (name : List UInt8) (n : Nat) :
    scan zip name (n + 1) at_ =
      if f.name = name then pure (some (f.entry deflate))
      else scan zip name n (at_ + (f.centralBytes deflate offset).length) := by
  have hclen := hc.le_length
  have hllen := hl.le_length
  have hnext : (f.centralBytes deflate offset).length = _ := centralBytes_length f offset
  rw [localBytes_length] at hllen
  have c := central_read hc hzip (by omega) (by omega)
  have l := local_read hl hzip
  rw [scan, c.signature, pure_bind, if_neg (by simp), c.method, pure_bind, c.compressed, pure_bind, c.size, pure_bind,
    c.nameLen, pure_bind, c.extraLen, pure_bind, c.commentLen, pure_bind, c.local_, pure_bind]
  rw [add_eq (by omega), pure_bind, add_eq (by omega), pure_bind, c.name, okOr_some, pure_bind, add_eq (by omega),
    pure_bind, ← hnext]
  by_cases hf : f.name = name
  · rw [if_neg (not_not_intro hf), if_pos hf, l.signature, pure_bind, if_neg (by simp), add_eq (by omega), pure_bind,
      l.nameLen, pure_bind, add_eq (by omega), pure_bind, l.extraLen, pure_bind, add_eq (by omega), pure_bind,
      add_eq (by omega), pure_bind, l.data]
    rfl
  · rw [if_pos hf, if_neg hf]

/-! ## The directory -/

variable (deflate) in
def locals (files : List File) : List UInt8 := files.flatMap (File.localBytes deflate)

variable (deflate) in
/-- The directory of files whose entries stand one after the other, from an offset on. -/
def centrals : Nat → List File → List UInt8
  | _, [] => []
  | offset, f :: files => f.centralBytes deflate offset ++ centrals (offset + (f.localBytes deflate).length) files

/-- The entry of the file with a name. -/
def named (deflate : List UInt8 → List UInt8) (name : List UInt8) (files : List File) : Option Entry :=
  (files.find? (·.name = name)).map (File.entry deflate)

/-- Where none of the files has the name, what is after their entries is read. -/
theorem scan_files {files : List File} (hc : Located zip at_ (centrals deflate offset files))
    (hl : Located zip offset (locals deflate files)) (hzip : zip.length < 2 ^ 32) (name : List UInt8) (k : Nat) :
    scan zip name (files.length + k) at_ =
      match named deflate name files with
      | some entry => pure (some entry)
      | none => scan zip name k (at_ + (centrals deflate offset files).length) := by
  induction files generalizing at_ offset with
  | nil => simp [centrals, named]
  | cons f files ih =>
    obtain ⟨hc, hcs⟩ := hc.append
    obtain ⟨hl, hls⟩ := hl.append
    rw [List.length_cons, Nat.add_right_comm, scan_file hc hl hzip, ih hcs hls, centrals, List.length_append,
      Nat.add_assoc]
    unfold named
    by_cases hf : f.name = name <;> simp [hf]

/-- Fewer of them are read as if the others were not there. -/
theorem scan_take {files : List File} (hc : Located zip at_ (centrals deflate offset files))
    (hl : Located zip offset (locals deflate files)) (hzip : zip.length < 2 ^ 32) (name : List UInt8) {k : Nat}
    (hk : k ≤ files.length) : scan zip name k at_ = pure (named deflate name (files.take k)) := by
  induction files generalizing at_ offset k with
  | nil =>
    obtain rfl : k = 0 := Nat.le_zero.1 hk
    rfl
  | cons f files ih =>
    cases k with
    | zero => rfl
    | succ k =>
      obtain ⟨hc, hcs⟩ := hc.append
      obtain ⟨hl, hls⟩ := hl.append
      rw [scan_file hc hl hzip, ih hcs hls (Nat.le_of_succ_le_succ hk)]
      unfold named
      by_cases hf : f.name = name <;> simp [hf]

/-- Read to its end, the entry of a file gives what was archived. -/
theorem reader_entry {inflate : List UInt8 → List UInt8} (hinflate : ∀ contents, inflate (deflate contents) = contents)
    {limit : Nat} (h : f.contents.length ≤ limit) : (f.entry deflate).reader inflate limit = pure f.contents := by
  unfold Entry.reader File.entry File.method File.data
  rw [if_neg (Nat.not_lt.2 h)]
  cases f.deflated with
  | false =>
    simp only [Bool.false_eq_true, if_false]
    rw [List.take_of_length_le h]
  | true =>
    simp only [if_true]
    rw [hinflate, List.take_of_length_le h]

/-! ## The end record -/

theorem wordAt_eq_iff {k n : Nat} (hn : n < 256 ^ k) (hat : at_ + k < 2 ^ 64) :
    wordAt k zip at_ = pure (some n) ↔ Located zip at_ (toLeBytes k n) := by
  refine ⟨fun h => ?_, fun h => wordAt_located h hn hat⟩
  rw [wordAt_eq hat, pure_inj] at h
  obtain ⟨bs, hbs, rfl⟩ := Option.map_eq_some_iff.1 h
  have hlen := slice_length hbs
  rw [Nat.add_sub_cancel_left] at hlen
  rw [← hlen, toLeBytes_fromLeBytes]
  exact .of_slice hbs

/-- An end record may be here. -/
def Signed (zip : List UInt8) (p : Nat) : Prop := p + 22 ≤ zip.length ∧ Located zip p (toLeBytes 4 endSignature)

/-- And none after it. -/
def LastSigned (zip : List UInt8) (p : Nat) : Prop := Signed zip p ∧ ∀ q, p < q → ¬ Signed zip q

theorem lastEnd_eq {p lo n : Nat} (h : LastSigned zip p) (hlo : lo ≤ p) (hn : lo + n = zip.length - 21)
    (hzip : zip.length < 2 ^ 32) : lastEnd zip lo n = pure (some p) := by
  have hfits := h.1.1
  suffices hrun : ∀ m ≤ n, p < lo + m → lastEnd zip lo m = pure (some p) from hrun n le_rfl (by omega)
  intro m hm hp
  induction m with
  | zero => omega
  | succ m ih =>
    have hread : u32At zip (lo + m) = pure (some endSignature) ↔ Located zip (lo + m) (toLeBytes 4 endSignature) :=
      wordAt_eq_iff (by decide) (by omega)
    obtain ⟨o, ho⟩ : ∃ o, u32At zip (lo + m) = pure o := ⟨_, wordAt_eq (by omega) zip⟩
    rw [lastEnd, ho, pure_bind]
    rw [ho, pure_inj] at hread
    by_cases hpm : p = lo + m
    · rw [if_pos (hread.2 (hpm ▸ h.1.2)), hpm]
    · -- Past `p` nothing is signed, so the search goes on down.
      have hnone : ¬ Signed zip (lo + m) := h.2 _ (by omega)
      rw [if_neg fun heq => hnone ⟨by omega, hread.1 heq⟩, ih (by omega) (by omega)]

/-- What is searched is from the record of the last signature. -/
theorem find_last {p count directory : Nat} (h : LastSigned zip p) (hp : zip.length ≤ p + 22 + 0xffff)
    (hzip : zip.length < 2 ^ 32) (hcount : Located zip (p + 10) (toLeBytes 2 count)) (hlt : count < 65536)
    (hdirectory : Located zip (p + 16) (toLeBytes 4 directory)) (hlt' : directory < 2 ^ 32) (name : List UInt8) :
    find zip name = scan zip name count directory := by
  have hfits := h.1.1
  unfold find
  dsimp only
  rw [lastEnd_eq h (by omega) (by omega) hzip, pure_bind, okOr_some, pure_bind, needWord_located hcount hlt (by omega),
    pure_bind, needWord_located hdirectory hlt' (by omega), pure_bind]

/-! ## Archives -/

structure Archive where
  files : List File
  /-- What stands between the entries and the directory, as the signatures of an APK do. -/
  block : List UInt8
  /-- Of the end record: the numbers of the disks, and the count on this one. -/
  disks : List UInt8
  comment : List UInt8
  distinct : (files.map File.name).Nodup
  few : files.length < 65536
  fields : disks.length = 6
  short : comment.length ≤ 65535

namespace Archive

variable (deflate) (a : Archive)

def directory : List UInt8 := centrals deflate 0 a.files

def directoryAt : Nat := (locals deflate a.files ++ a.block).length

def endAt : Nat := a.directoryAt deflate + (a.directory deflate).length

def endRecord : List UInt8 :=
  toLeBytes 4 endSignature ++ a.disks ++ toLeBytes 2 a.files.length ++ toLeBytes 4 (a.directory deflate).length ++
    toLeBytes 4 (a.directoryAt deflate) ++ toLeBytes 2 a.comment.length

def bytes : List UInt8 :=
  locals deflate a.files ++ a.block ++ a.directory deflate ++ a.endRecord deflate ++ a.comment

/-- Every file is found by its name, with its data, and nothing by another name. -/
def Finds : Prop := ∀ name, find (a.bytes deflate) name = pure (named deflate name a.files)

theorem endRecord_length : (a.endRecord deflate).length = 22 := by
  simp only [endRecord, List.length_append, toLeBytes_length, a.fields]

theorem bytes_length : (a.bytes deflate).length = a.endAt deflate + 22 + a.comment.length := by
  simp only [bytes, endAt, directoryAt, List.length_append, endRecord_length]

/-- What stands where in the archive. -/
theorem located :
    Located (a.bytes deflate) 0 (locals deflate a.files) ∧
      Located (a.bytes deflate) (a.directoryAt deflate) (a.directory deflate) ∧
      Located (a.bytes deflate) (a.endAt deflate) (a.endRecord deflate) := by
  refine ⟨⟨[], a.block ++ a.directory deflate ++ a.endRecord deflate ++ a.comment, ?_, rfl⟩,
    ⟨locals deflate a.files ++ a.block, a.endRecord deflate ++ a.comment, ?_, rfl⟩,
    ⟨locals deflate a.files ++ a.block ++ a.directory deflate, a.comment, rfl, ?_⟩⟩
  · simp only [bytes, List.nil_append, List.append_assoc]
  · simp only [bytes, List.append_assoc]
  · rw [List.length_append]
    rfl

theorem end_located :
    Located (a.bytes deflate) (a.endAt deflate) (toLeBytes 4 endSignature) ∧
      Located (a.bytes deflate) (a.endAt deflate + 10) (toLeBytes 2 a.files.length) ∧
      Located (a.bytes deflate) (a.endAt deflate + 16) (toLeBytes 4 (a.directoryAt deflate)) := by
  have h := (a.located deflate).2.2
  unfold endRecord at h
  simp only [List.append_assoc] at h
  obtain ⟨e0, h⟩ := h.append
  obtain ⟨-, h⟩ := h.append
  obtain ⟨e10, h⟩ := h.append
  obtain ⟨-, h⟩ := h.append
  obtain ⟨e16, -⟩ := h.append
  simp only [toLeBytes_length, a.fields, Nat.add_assoc, Nat.reduceAdd] at e10 e16
  exact ⟨e0, e10, e16⟩

theorem end_signed : Signed (a.bytes deflate) (a.endAt deflate) :=
  ⟨by rw [bytes_length]; exact Nat.le_add_right _ _, (a.end_located deflate).1⟩

end Archive

/-! ## What is found -/

theorem named_eq_none_iff {name : List UInt8} {files : List File} :
    named deflate name files = none ↔ ∀ f ∈ files, f.name ≠ name := by
  simp [named]

theorem exists_located {k : Nat} (h : at_ + k ≤ zip.length) : ∃ n < 256 ^ k, Located zip at_ (toLeBytes k n) := by
  have hslice : slice zip at_ (at_ + k) = some _ := slice_eq_some.2 ⟨Nat.le_add_right _ _, h, rfl⟩
  have hlen := slice_length hslice
  rw [Nat.add_sub_cancel_left] at hlen
  have hlt := fromLeBytes_lt ((zip.take (at_ + k)).drop at_)
  have hbytes := toLeBytes_fromLeBytes ((zip.take (at_ + k)).drop at_)
  rw [hlen] at hlt hbytes
  exact ⟨_, hlt, hbytes.symm ▸ .of_slice hslice⟩

theorem toLeBytes_inj {k m n : Nat} (hm : m < 256 ^ k) (hn : n < 256 ^ k) : toLeBytes k m = toLeBytes k n ↔ m = n := by
  refine ⟨fun h => ?_, congrArg _⟩
  rw [← fromLeBytes_toLeBytes hm, h, fromLeBytes_toLeBytes hn]

theorem scan_bad {signature : Nat} (h : u32At zip at_ = pure (some signature)) (hne : signature ≠ centralSignature)
    (name : List UInt8) (n : Nat) : scan zip name (n + 1) at_ = throw "bad central directory" := by
  rw [scan, h, pure_bind, if_pos (by simpa using hne)]
  rfl

variable {a : Archive} {p count : Nat}

/-- The last signature is the archive's own, or one of its comment. -/
theorem endAt_le (h : LastSigned (a.bytes deflate) p) : a.endAt deflate ≤ p := by
  by_contra hlt
  exact h.2 _ (Nat.lt_of_not_le hlt) (a.end_signed deflate)

theorem named_take_ne {n : Nat} (h : n < a.files.length) : ∀ f ∈ a.files.take n, f.name ≠ a.files[n].name := by
  have hdistinct := a.distinct
  rw [← List.take_append_drop n a.files, List.drop_eq_getElem_cons h, List.map_append, List.map_cons] at hdistinct
  intro f hf heq
  exact (List.nodup_append.1 hdistinct).2.2 _ (List.mem_map_of_mem hf) _ List.mem_cons_self heq

theorem finds_iff_count (hlen : (a.bytes deflate).length < 2 ^ 32) (h : LastSigned (a.bytes deflate) p)
    (hcount : Located (a.bytes deflate) (p + 10) (toLeBytes 2 count)) (hlt : count < 65536)
    (hdirectory : Located (a.bytes deflate) (p + 16) (toLeBytes 4 (a.directoryAt deflate))) :
    a.Finds deflate ↔ count = a.files.length := by
  obtain ⟨hlocals, hcentrals, -⟩ := a.located deflate
  have hbytes := a.bytes_length deflate
  have hshort := a.short
  have hend := endAt_le h
  have hfind := find_last h (by omega) hlen hcount hlt hdirectory (by unfold Archive.endAt at *; omega)
  constructor
  · intro hfinds
    rcases Nat.lt_trichotomy count a.files.length with hfew | heq | hmany
    · -- The first file that is not counted is not found.
      have hmem := List.getElem_mem hfew
      have hnamed := hfinds (a.files[count]).name
      have htake : named deflate (a.files[count]).name (a.files.take count) = none :=
        named_eq_none_iff.2 (named_take_ne hfew)
      rw [hfind, scan_take hcentrals hlocals hlen _ (Nat.le_of_lt hfew), htake, pure_inj] at hnamed
      exact absurd rfl (named_eq_none_iff.1 hnamed.symm _ hmem)
    · exact heq
    · -- A name that is too long for any of them is looked for past the directory.
      let name : List UInt8 := List.replicate 65536 0
      have hnone : named deflate name a.files = none := named_eq_none_iff.2 fun f _ heq => by
        have hlong := congrArg List.length heq
        rw [List.length_replicate] at hlong
        exact absurd f.lengths.1 (by omega)
      have hsign := (wordAt_eq_iff (by decide) (by omega)).2 (a.end_located deflate).1
      obtain ⟨k, rfl⟩ : ∃ k, count = a.files.length + (k + 1) := ⟨count - a.files.length - 1, by omega⟩
      have hbad := scan_files hcentrals hlocals hlen name (k + 1)
      rw [hnone] at hbad
      have hnamed := hfinds name
      rw [hfind, hbad] at hnamed
      exact absurd ((scan_bad hsign (by decide) name k).symm.trans hnamed) throw_ne_pure
  · intro heq name
    rw [hfind, heq, scan_take hcentrals hlocals hlen name le_rfl, List.take_length]

/-- An archive is read where the record of the last signature is of its directory, as its own is; of any bytes there is
an answer. -/
theorem find_archive (deflate : List UInt8 → List UInt8) (a : Archive) (hlen : (a.bytes deflate).length < 2 ^ 32) :
    ((∀ q, a.endAt deflate < q → ¬ Signed (a.bytes deflate) q) → a.Finds deflate) ∧
      (∀ p, LastSigned (a.bytes deflate) p → Located (a.bytes deflate) (p + 16) (toLeBytes 4 (a.directoryAt deflate)) →
        (a.Finds deflate ↔ Located (a.bytes deflate) (p + 10) (toLeBytes 2 a.files.length))) ∧
      ∀ zip : List UInt8, zip.length < 2 ^ 63 → ∀ name, Returns (find zip name) fun _ => True := by
  refine ⟨fun hlast => ?_, fun p hp hdirectory => ?_, fun zip h name => find_returns h name⟩
  · obtain ⟨-, hcount, hdirectory⟩ := a.end_located deflate
    exact (finds_iff_count hlen ⟨a.end_signed deflate, hlast⟩ hcount a.few hdirectory).2 rfl
  · have hfits : p + 10 + 2 ≤ (a.bytes deflate).length := Nat.le_trans (by omega) hp.1.1
    obtain ⟨count, hlt, hcount⟩ := exists_located hfits
    rw [finds_iff_count hlen hp hcount hlt hdirectory]
    refine ⟨fun heq => heq ▸ hcount, fun h => ?_⟩
    have hslice : slice (a.bytes deflate) (p + 10) (p + 12) = some (toLeBytes 2 count) :=
      hcount.slice_eq (by rw [toLeBytes_length])
    rw [h.slice_eq (by rw [toLeBytes_length])] at hslice
    exact (toLeBytes_inj hlt a.few).1 (Option.some.inj hslice.symm)

/-- DEFLATE with all of it in one stored block. -/
def storedBlock (contents : List UInt8) : List UInt8 :=
  1 :: toLeBytes 2 contents.length ++ toLeBytes 2 (65535 - contents.length) ++ contents

/-- A file with nothing in the fields that are not read. -/
def File.plain (name contents : List UInt8) (deflated : Bool) (h : name.length < 65536 ∧ contents.length < 2 ^ 32) :
    File where
  name := name
  contents := contents
  deflated := deflated
  localFields := List.replicate 22 0
  localExtra := [0, 0, 0]
  versions := List.replicate 6 0
  times := List.replicate 8 0
  attributes := List.replicate 8 0
  centralExtra := []
  comment := []
  fields := by simp
  lengths := ⟨h.1, by simp, by simp, by simp, h.2⟩

/-- Two files, and a comment after them. -/
def Archive.plain (comment : List UInt8) (h : comment.length ≤ 65535) : Archive where
  files := [.plain [97] [102, 105] false (by decide), .plain [98] [7, 7, 7] true (by decide)]
  block := []
  disks := List.replicate 6 0
  comment := comment
  distinct := by decide
  few := by decide
  fields := by simp
  short := h

set_option maxRecDepth 2000 in
theorem find_archive_plain : (Archive.plain [104, 105] (by decide)).Finds storedBlock := by
  have hlen : ((Archive.plain [104, 105] (by decide)).bytes storedBlock).length = 196 := rfl
  have hshort : ((Archive.plain [104, 105] (by decide)).bytes storedBlock).length < 2 ^ 32 := by
    rw [hlen]
    decide
  refine (find_archive storedBlock (Archive.plain [104, 105] (by decide)) hshort).1 fun q hq hsigned => ?_
  have hend : (Archive.plain [104, 105] (by decide)).endAt storedBlock = 172 := rfl
  have hfits := hsigned.1
  have hslice := hsigned.2.slice_eq rfl
  rw [hlen] at hfits
  rw [hend] at hq
  obtain rfl | rfl : q = 173 ∨ q = 174 := by omega
  · exact absurd hslice (by decide)
  · exact absurd hslice (by decide)

set_option maxRecDepth 2000 in
/-- A comment that looks like an end record hides the files. -/
theorem comment_hides :
    let a := Archive.plain (toLeBytes 4 endSignature ++ List.replicate 18 0) (by decide)
    (a.bytes storedBlock).length < 2 ^ 32 ∧ find (a.bytes storedBlock) [97] = pure none ∧ ¬ a.Finds storedBlock := by
  intro a
  have hlen : (a.bytes storedBlock).length = 216 := rfl
  have hsignature : slice (a.bytes storedBlock) 194 198 = some (toLeBytes 4 endSignature) := by decide
  have hcount : slice (a.bytes storedBlock) 204 206 = some (toLeBytes 2 0) := by decide
  have hdirectory : slice (a.bytes storedBlock) 210 214 = some (toLeBytes 4 0) := by decide
  have hlast : LastSigned (a.bytes storedBlock) 194 := by
    refine ⟨⟨by rw [hlen], .of_slice hsignature⟩, fun q hq hsigned => ?_⟩
    have := hsigned.1
    omega
  have hnone : find (a.bytes storedBlock) [97] = pure none :=
    find_last hlast (by rw [hlen]; decide) (by rw [hlen]; decide) (.of_slice hcount) (by decide) (.of_slice hdirectory)
      (by decide) [97]
  refine ⟨by rw [hlen]; decide, hnone, fun h => ?_⟩
  have hsome := h [97]
  rw [hnone, pure_inj] at hsome
  exact absurd hsome (by decide)

end Vento.Linux.Zip
