import Vento.App.Transfer
/-!
# What an imported file can reach

Imports and deletes, in any order, and the previews' files. An id is put into a path as it is, so one with slashes leads out
of the directory, and two that differ in slashes at the start share their files (`harmless_iff`).

`imports_safe_iff` says of which imports nothing of the kind comes: those that are `Tidy`.
-/

namespace Vento.App.Previews

open Vento.Lib Vento.App.Connections Vento.App.Transfer

/-! ## Paths of previews -/

section Paths

variable (disk : Disk)

/-- Every preview is directly inside the directory, and no two connections share one. -/
structure Harmless (ids : List Text) : Prop where
  inside : ∀ id ∈ ids, ∀ f ∈ previews disk id, Inside (thumbnailDir disk) f
  apart : ids.Pairwise fun i j => ∀ f ∈ previews disk i, f ∉ previews disk j

/-- Without the slashes that they begin with, the ids have none, and no two are the same. -/
structure Tame (ids : List Text) : Prop where
  plain : ∀ id ∈ ids, slash ∉ strip id
  distinct : (ids.map strip).Nodup

theorem suffix_sealed : Suffix (lit ".sealed") where
  long := by decide
  plain := by decide

theorem suffix_png : Suffix (lit ".png") where
  long := by decide
  plain := by decide

theorem thumbnailDir_eq : ∃ parent, thumbnailDir disk = parent ++ lit "thumbnails" := by
  have hchild : normalize (lit "thumbnails") = lit "thumbnails" := by decide
  rw [thumbnailDir, newFile, hchild, resolve, if_neg (by decide), if_neg (by decide)]
  generalize (if disk.filesDir = [] then [slash] else disk.filesDir) = parent
  split
  · exact ⟨parent, rfl⟩
  · exact ⟨parent ++ [slash], List.append_cons parent slash _⟩

theorem thumbnailDir_ne_nil : thumbnailDir disk ≠ [] := by
  obtain ⟨parent, h⟩ := thumbnailDir_eq disk
  rw [h]
  exact List.append_ne_nil_of_right_ne_nil parent (by decide)

theorem thumbnailDir_ne_root : thumbnailDir disk ≠ [slash] := by
  obtain ⟨parent, h⟩ := thumbnailDir_eq disk
  intro heq
  have hlen := congrArg List.length (h.symm.trans heq)
  rw [List.length_append] at hlen
  have hlong : (lit "thumbnails").length = 10 := by decide
  rw [hlong, List.length_singleton] at hlen
  omega

variable {disk}

theorem mem_previews {id f : Text} : f ∈ previews disk id ↔ ∃ suffix ∈ [lit ".sealed", lit ".png"],
    f = newFile (thumbnailDir disk) (id ++ suffix) := by
  simp [previews, thumbnailFile, legacyThumbnailFile]

theorem suffix_of_mem {suffix : Text} (h : suffix ∈ [lit ".sealed", lit ".png"]) : Suffix suffix := by
  rcases List.mem_cons.1 h with rfl | h
  · exact suffix_sealed
  · rw [List.mem_singleton.1 h]
    exact suffix_png

/-- Names of previews that are the same are of ids that are the same. -/
theorem append_suffix_inj {a a' suffix suffix' : Text} (h : suffix ∈ [lit ".sealed", lit ".png"])
    (h' : suffix' ∈ [lit ".sealed", lit ".png"]) (heq : a ++ suffix = a' ++ suffix') : a = a' := by
  have hlast : ∀ s ∈ [lit ".sealed", lit ".png"], ∀ s' ∈ [lit ".sealed", lit ".png"], s.getLast? = s'.getLast? → s = s' := by
    decide
  have hsame := congrArg List.getLast? heq
  rw [List.getLast?_append_of_ne_nil _ (suffix_of_mem h).ne_nil, List.getLast?_append_of_ne_nil _ (suffix_of_mem h').ne_nil] at hsame
  rw [hlast suffix h suffix' h' hsame] at heq
  exact List.append_cancel_right heq

theorem harmless_iff {ids : List Text} : Harmless disk ids ↔ Tame ids := by
  have hinside : ∀ id suffix, suffix ∈ [lit ".sealed", lit ".png"] →
      (Inside (thumbnailDir disk) (newFile (thumbnailDir disk) (id ++ suffix)) ↔ slash ∉ strip id) := fun id suffix h =>
    inside_newFile (suffix_of_mem h) id (thumbnailDir_ne_nil disk) (thumbnailDir_ne_root disk)
  have hpath : ∀ id suffix, suffix ∈ [lit ".sealed", lit ".png"] →
      newFile (thumbnailDir disk) (id ++ suffix) = thumbnailDir disk ++ slash :: collapse (strip id ++ suffix) := fun id suffix h =>
    newFile_append (suffix_of_mem h) id (thumbnailDir_ne_nil disk) (thumbnailDir_ne_root disk)
  constructor
  · -- The sealed ones tell it already: they are of one path where the ids are alike.
    intro h
    refine ⟨fun id hid => ?_, List.pairwise_map.2 (h.apart.imp fun {i j} hij heq => ?_)⟩
    · exact (hinside id _ List.mem_cons_self).1 (h.inside id hid _ List.mem_cons_self)
    · apply hij (thumbnailFile disk i) List.mem_cons_self
      rw [thumbnailFile, hpath i _ List.mem_cons_self, heq, ← hpath j _ List.mem_cons_self]
      exact List.mem_cons_self
  · intro h
    refine ⟨fun id hid f hf => ?_, (List.pairwise_map.1 h.distinct).imp_of_mem fun {i j} hi hj hij f hf hf' => ?_⟩
    · obtain ⟨suffix, hs, rfl⟩ := mem_previews.1 hf
      exact (hinside id suffix hs).2 (h.plain id hid)
    · obtain ⟨suffix, hs, rfl⟩ := mem_previews.1 hf
      obtain ⟨suffix', hs', heq⟩ := mem_previews.1 hf'
      rw [hpath i suffix hs, hpath j suffix' hs'] at heq
      have hnames := (List.cons.inj (List.append_cancel_left heq)).2
      have hi := (mem_collapse.not.1 ((notMem_collapse (suffix_of_mem hs) i).2 (h.plain i hi)))
      have hj := (mem_collapse.not.1 ((notMem_collapse (suffix_of_mem hs') j).2 (h.plain j hj)))
      rw [collapse_of_notMem hi, collapse_of_notMem hj] at hnames
      exact hij (append_suffix_inj hs hs' hnames)

/-- What is a preview of two is of one. -/
theorem Harmless.eq_of_mem {ids : List Text} (h : Harmless disk ids) {i j f : Text} (hi : i ∈ ids) (hj : j ∈ ids)
    (hf : f ∈ previews disk i) (hf' : f ∈ previews disk j) : i = j := by
  by_contra hne
  have : Std.Symm fun i j => ∀ f ∈ previews disk i, f ∉ previews disk j := ⟨fun _ _ hij f hj hi => hij f hi hj⟩
  exact h.apart.forall hi hj hne f hf hf'

end Paths

/-! ## Steps -/

inductive Act where
  /-- A document that was picked, and the random ids of its import. -/
  | imported (root : Obj) (replaceExisting : Bool) (uuids : Nat → Nat → Text)
  | deleted (ids : List Text) (uuids : Nat → Text)

section Steps

variable (J : OrgJson) (b : Build) (disk : Disk) (s : Store)

/-- Nothing comes of a document that is refused. -/
def step : Act → Store
  | .imported root replaceExisting uuids => (openDocument J root).elim s fun doc => apply J b disk uuids s doc replaceExisting
  | .deleted ids uuids => delete J disk uuids s ids

/-- The document is accepted, and is one of connections. -/
def accepts (root : Obj) : Bool := (openDocument J root).any fun doc => doc.kind = kindConnections

/-- What the records of an import ask for as ids, each with the random id at hand. -/
def asksOf : Act → List (Option Text × Text)
  | .imported root _ uuids =>
    if accepts J root then asks J b (uuids 4) (((optJSONArray root (lit "connections")).getD []).take maxRecords).zipIdx else []
  | .deleted _ _ => []

/-- The ids that an act deletes. -/
def removes : Act → List Text
  | .imported root replaceExisting uuids => if accepts J root && replaceExisting then idsOf (all J (uuids 1) s) else []
  | .deleted ids _ => ids

/-- The ids of the connections that stay. -/
def stays (act : Act) (uuids : Nat → Text) : List Text := (idsOf (all J uuids s)).filter fun id => id ∉ removes J s act

/-- What is deleted is stored, and a random id is like no other and without slashes. -/
structure Allowed (act : Act) : Prop where
  stored : ∀ uuids, ∀ id ∈ removes J s act, id ∈ idsOf (all J uuids s)
  random : ∀ uuids, New strip (asksOf J b act) (idsOf (all J uuids s))
  plain : ∀ r ∈ asksOf J b act, slash ∉ r.2

/-- The previews of what is stored are harmless then, and each file that went was one of what was deleted, and of nothing
that stays. -/
structure Safe (act : Act) (s s' : Store) : Prop where
  harmless : ∀ uuids, Harmless disk (idsOf (all J uuids s'))
  removed : ∀ there ∈ s.files, there ∉ s'.files → (∃ id ∈ removes J s act, ∃ f ∈ previews disk id,
    Inside (thumbnailDir disk) f ∧ place disk.isDir f = some there) ∧
      ∀ uuids, ∀ id ∈ stays J s act uuids, ∀ f ∈ previews disk id, place disk.isDir f ≠ some there

/-- No id that a record asks for has a slash in it but at the start, or is that of another record or of a connection that
stays but for slashes at the start. -/
structure Tidy (act : Act) : Prop where
  plain : ∀ id ∈ asked (asksOf J b act), slash ∉ strip id
  differ : ∀ uuids, Differ strip (asksOf J b act) (stays J s act uuids)

end Steps

/-! ## What a step does -/

section Does

variable {J : OrgJson} {b : Build} {disk : Disk} {s : Store}

theorem mem_foldl_deleteFile {paths : List Text} {files : List Place} {there : Place} :
    there ∈ paths.foldl (deleteFile disk) files ↔ there ∈ files ∧ ∀ f ∈ paths, place disk.isDir f ≠ some there := by
  induction paths generalizing files with
  | nil => simp
  | cons f paths ih =>
    rw [List.foldl_cons, ih, deleteFile, List.mem_filter, List.forall_mem_cons, decide_eq_true_eq, and_assoc]

/-- What there is after connections were deleted. -/
structure Deleted (J : OrgJson) (disk : Disk) (ids : List Text) (s s' : Store) : Prop where
  list : ∀ uuids uuids', all J uuids s' = (all J uuids' s).filter fun c => c.id ∉ ids
  files : ∀ there, there ∈ s'.files ↔ there ∈ s.files ∧ ∀ id ∈ ids, ∀ f ∈ previews disk id, place disk.isDir f ≠ some there

theorem deleted_nil (hs : Stored J s) : Deleted J disk [] s s where
  list uuids uuids' := by
    rw [hs.reads uuids uuids']
    exact (List.filter_eq_self.2 fun _ _ => by simp).symm
  files there := by simp

theorem deleted_delete (hs : Stored J s) (uuids : Nat → Text) (ids : List Text) :
    Deleted J disk ids s (delete J disk uuids s ids) where
  list uuids' uuids'' := by
    have hlist : (delete J disk uuids s ids).list = (write s ((all J uuids s).filter fun c => c.id ∉ ids)).list := rfl
    rw [all_congr hlist, all_write, hs.reads uuids uuids'']
    exact groups_eq_self ((grouped_all J uuids'' s).sublist List.filter_sublist)
  files there := by
    have h : ∀ (ids : List Text) (files : List Place),
        there ∈ ids.foldl (fun files id => (previews disk id).foldl (deleteFile disk) files) files ↔
          there ∈ files ∧ ∀ id ∈ ids, ∀ f ∈ previews disk id, place disk.isDir f ≠ some there := by
      intro ids
      induction ids with
      | nil => simp
      | cons id ids ih =>
        intro files
        rw [List.foldl_cons, ih, mem_foldl_deleteFile, List.forall_mem_cons, and_assoc]
    exact h ids s.files

/-- What an act leaves: the connections that stay, and those it adds, under the ids that they are given. -/
structure Leaves (J : OrgJson) (b : Build) (disk : Disk) (act : Act) (s s' : Store) : Prop where
  reads : ∀ uuids uuids', all J uuids s' = all J uuids' s'
  ids : ∀ uuids uuids', (idsOf (all J uuids s')).Perm (stays J s act uuids' ++ issue (asksOf J b act) (stays J s act uuids'))
  files : ∀ there, there ∈ s'.files ↔
    there ∈ s.files ∧ ∀ id ∈ removes J s act, ∀ f ∈ previews disk id, place disk.isDir f ≠ some there

theorem idsOf_filter (ids : List Text) (L : List Connection) :
    idsOf (L.filter fun c => c.id ∉ ids) = (idsOf L).filter fun id => id ∉ ids := by
  rw [idsOf, idsOf, List.filter_map]
  rfl

theorem Deleted.leaves {act : Act} {s' : Store} (h : Deleted J disk (removes J s act) s s') (hnone : asksOf J b act = []) :
    Leaves J b disk act s s' where
  reads uuids uuids' := by rw [h.list uuids uuids, h.list uuids' uuids]
  ids uuids uuids' := by
    rw [hnone, issue, List.append_nil, h.list uuids uuids', idsOf_filter]
    exact List.Perm.refl _
  files := h.files

/-- What is added to what stays. -/
theorem Deleted.leaves_addAll {act : Act} {s₁ : Store} (h : Deleted J disk (removes J s act) s s₁) {added : List Connection}
    (uuids₀ : Nat → Text) (hids : ∀ uuids, idsOf added = issue (asksOf J b act) (stays J s act uuids)) :
    Leaves J b disk act s (addAll J uuids₀ s₁ added) := by
  have hall : ∀ uuids uuids', all J uuids (addAll J uuids₀ s₁ added) =
      groups Connection.pinned ((all J uuids' s).filter (fun c => c.id ∉ removes J s act) ++ added) := by
    intro uuids uuids'
    rw [addAll]
    split
    · next hnil =>
      rw [hnil, List.append_nil, h.list uuids uuids']
      exact (groups_eq_self ((grouped_all J uuids' s).sublist List.filter_sublist)).symm
    · rw [all_write, h.list uuids₀ uuids']
  refine ⟨fun uuids uuids' => ?_, fun uuids uuids' => ?_, fun there => ?_⟩
  · rw [hall uuids uuids, hall uuids' uuids]
  · rw [hall uuids uuids', ← hids uuids', stays, ← idsOf_filter]
    exact ((groups_perm _ _).map _).trans (by rw [List.map_append]; exact List.Perm.refl _)
  · rw [← h.files there, addAll]
    split <;> rfl

theorem root_of_open {root : Obj} {doc : Document} (h : openDocument J root = some doc) : doc.root = root := by
  rw [openDocument] at h
  dsimp only at h
  split at h
  · cases h
  · split at h
    · cases h
    · split at h
      · cases h
        rfl
      · split at h
        · obtain ⟨flat, -, rfl⟩ := Option.map_eq_some_iff.1 h
          rfl
        · cases h

/-- An import of connections, after what it deletes. -/
theorem leaves_imported (hs : Stored J s) {root : Obj} {replaceExisting : Bool} {uuids : Nat → Nat → Text}
    (haccepts : accepts J root = true) :
    Leaves J b disk (.imported root replaceExisting uuids) s (applyConnections J b disk uuids s root replaceExisting).1 := by
  have hdeleted : Deleted J disk (removes J s (.imported root replaceExisting uuids)) s
      (if replaceExisting then delete J disk (uuids 2) s ((all J (uuids 1) s).map (·.id)) else s) := by
    rw [removes, haccepts]
    cases replaceExisting with
    | false => exact deleted_nil hs
    | true => exact deleted_delete hs (uuids 2) _
  apply hdeleted.leaves_addAll
  intro uuids'
  have htaken := congrArg idsOf (hdeleted.list (uuids 3) uuids')
  rw [idsOf_filter] at htaken
  rw [idsOf, imported_ids, asksOf, if_pos haccepts, stays, ← htaken]
  rfl

variable (b disk) in
/-- Every act is one or the other. -/
theorem step_leaves (hs : Stored J s) (act : Act) : Leaves J b disk act s (step J b disk s act) := by
  cases act with
  | deleted ids uuids => exact (deleted_delete hs uuids ids).leaves rfl
  | imported root replaceExisting uuids =>
    have hrefused : accepts J root = false → Leaves J b disk (.imported root replaceExisting uuids) s s := by
      intro h
      apply Deleted.leaves
      · rw [removes, h]
        exact deleted_nil hs
      · rw [asksOf, h]
        rfl
    -- A document that is refused leaves all as it was, and one of settings does too.
    rw [step]
    cases hopen : openDocument J root with
    | none =>
      apply hrefused
      rw [accepts, hopen]
      rfl
    | some doc =>
      rw [Option.elim_some, apply]
      split
      · next hkind =>
        rw [root_of_open hopen]
        apply leaves_imported hs
        rw [accepts, hopen]
        simpa using hkind
      · next hkind =>
        apply hrefused
        rw [accepts, hopen]
        simpa using hkind

/-! ## Runs -/

theorem Tame.perm {ids ids' : List Text} (h : ids.Perm ids') : Tame ids ↔ Tame ids' := by
  constructor
  · exact fun ht => ⟨fun id hid => ht.plain id (h.mem_iff.2 hid), (h.map strip).nodup_iff.1 ht.distinct⟩
  · exact fun ht => ⟨fun id hid => ht.plain id (h.mem_iff.1 hid), (h.map strip).nodup_iff.2 ht.distinct⟩

theorem Tame.nodup {ids : List Text} (h : Tame ids) : ids.Nodup := List.Nodup.of_map _ h.distinct

theorem Tame.filter {ids : List Text} (h : Tame ids) (p : Text → Bool) : Tame (ids.filter p) where
  plain id hid := h.plain id (List.mem_of_mem_filter hid)
  distinct := h.distinct.sublist (List.filter_sublist.map _)

theorem strip_of_notMem {id : Text} (h : slash ∉ id) : strip id = id := by
  cases id with
  | nil => rfl
  | cons c id =>
    have hc : c ≠ slash := fun hc => h (hc ▸ List.mem_cons_self)
    simp [strip, hc]

/-- The ids that are given besides some tame ones are tame with them exactly if those that are asked for are. -/
theorem tame_issue_iff {rs : List (Option Text × Text)} {ids : List Text} (h : Tame ids) (hnew : New strip rs ids)
    (hplain : ∀ r ∈ rs, slash ∉ r.2) :
    Tame (ids ++ issue rs ids) ↔ (∀ id ∈ asked rs, slash ∉ strip id) ∧ Differ strip rs ids := by
  rw [← nodup_issue_iff hnew h.distinct]
  constructor
  · exact fun ht => ⟨fun id hid => ht.plain id (mem_of_asked hid), ht.distinct⟩
  · rintro ⟨hasked, hnd⟩
    refine ⟨fun id hid => ?_, hnd⟩
    rcases List.mem_append.1 hid with hid | hid
    · exact h.plain id hid
    · rcases mem_issue hid with hid | ⟨r, hr, rfl⟩
      · exact hasked id hid
      · rw [strip_of_notMem (hplain r hr)]
        exact hplain r hr

variable {act : Act}

variable (disk) in
/-- The previews are harmless after a step exactly if the act is tidy. -/
theorem tame_step_iff (hs : Stored J s) (ht : ∀ uuids, Tame (idsOf (all J uuids s))) (hok : Allowed J b s act) :
    (∀ uuids, Tame (idsOf (all J uuids (step J b disk s act)))) ↔ Tidy J b s act := by
  have hleaves := step_leaves b disk hs act
  have hone : ∀ uuids uuids', Tame (idsOf (all J uuids (step J b disk s act))) ↔
      (∀ id ∈ asked (asksOf J b act), slash ∉ strip id) ∧ Differ strip (asksOf J b act) (stays J s act uuids') := by
    intro uuids uuids'
    rw [Tame.perm (hleaves.ids uuids uuids')]
    exact tame_issue_iff ((ht uuids').filter _) ((hok.random uuids').mono fun _ h => List.mem_of_mem_filter h) hok.plain
  constructor
  · intro h
    exact ⟨((hone (fun _ => []) (fun _ => [])).1 (h _)).1, fun uuids => ((hone uuids uuids).1 (h uuids)).2⟩
  · exact fun h uuids => (hone uuids uuids).2 ⟨h.plain, h.differ uuids⟩

/-- A file that goes was a preview of what was deleted, and of nothing that stays. -/
theorem removed_step (hs : Stored J s) (ht : ∀ uuids, Tame (idsOf (all J uuids s))) (hok : Allowed J b s act) {there : Place}
    (hin : there ∈ s.files) (hout : there ∉ (step J b disk s act).files) :
    (∃ id ∈ removes J s act, ∃ f ∈ previews disk id, Inside (thumbnailDir disk) f ∧ place disk.isDir f = some there) ∧
      ∀ uuids, ∀ id ∈ stays J s act uuids, ∀ f ∈ previews disk id, place disk.isDir f ≠ some there := by
  have hharmless : ∀ uuids, Harmless disk (idsOf (all J uuids s)) := fun uuids => harmless_iff.2 (ht uuids)
  rw [(step_leaves b disk hs act).files, not_and, not_forall] at hout
  obtain ⟨id, hid⟩ := hout hin
  simp only [not_forall, not_not] at hid
  obtain ⟨hid, f, hf, hplace⟩ := hid
  have hstored := hok.stored
  constructor
  · exact ⟨id, hid, f, hf, (hharmless fun _ => []).inside id (hstored _ id hid) f hf, hplace⟩
  · intro uuids j hj g hg hplace'
    obtain ⟨hj, hkept⟩ := List.mem_filter.1 hj
    -- The file would be a preview of both, which are apart.
    have hfi := (hharmless uuids).inside id (hstored uuids id hid) f hf
    have hgi := (hharmless uuids).inside j hj g hg
    have hsame : f = g := hfi.eq_of_place disk.isDir hgi hplace hplace'
    have hids : id = j := (hharmless uuids).eq_of_mem (hstored uuids id hid) hj hf (hsame ▸ hg)
    subst hids
    simp [hid] at hkept

theorem safe_step_iff (hs : Stored J s) (ht : ∀ uuids, Tame (idsOf (all J uuids s))) (hok : Allowed J b s act) :
    Safe J disk act s (step J b disk s act) ↔ Tidy J b s act := by
  rw [← tame_step_iff disk hs ht hok]
  constructor
  · exact fun h uuids => harmless_iff.1 (h.harmless uuids)
  · exact fun h => ⟨fun uuids => harmless_iff.2 (h uuids), fun there hin hout => removed_step hs ht hok hin hout⟩

end Does

/-- In every run of imports and deletes from harmless previews: every step is safe exactly if every import is tidy. -/
theorem imports_safe_iff (J : OrgJson) (b : Build) (disk : Disk) (s₀ : Store) (acts : List Act) (hs : Stored J s₀)
    (h0 : ∀ uuids, Harmless disk (idsOf (all J uuids s₀)))
    (hm : Meets (fun s act => some (step J b disk s act)) (Allowed J b) s₀ acts) :
    (∀ pre act post, acts = pre ++ act :: post →
      Safe J disk act (pre.foldl (step J b disk) s₀) ((pre ++ [act]).foldl (step J b disk) s₀)) ↔
      ∀ pre act post, acts = pre ++ act :: post → Tidy J b (pre.foldl (step J b disk) s₀) act := by
  let I : List Act → Store → Prop := fun tr s =>
    s = tr.foldl (step J b disk) s₀ ∧ Stored J s ∧ ∀ uuids, Tame (idsOf (all J uuids s))
  have hstart : I [] s₀ := ⟨rfl, hs, fun uuids => harmless_iff.1 (h0 uuids)⟩
  refine fold_steps_iff_of_meets (Q := fun _ act s s' => Safe J disk act s s')
    (P := fun tr act => Tidy J b (tr.foldl (step J b disk) s₀) act) I hstart ?_ ?_ hm
  · rintro tr s act ⟨rfl, hs, ht⟩ hok
    exact safe_step_iff hs ht hok
  · rintro tr s act ⟨rfl, hs, ht⟩ hok htidy
    have htame := (tame_step_iff disk hs ht hok).2 htidy
    refine ⟨by rw [List.foldl_append]; rfl, ⟨(step_leaves b disk hs act).reads, fun uuids => (htame uuids).nodup⟩, htame⟩

/-! ## Two documents -/

section Documents

/-- A document of connections to a host, each with one of the ids. -/
def documentOf (ids : List Text) : Obj :=
  [(lit "format", .str format), (lit "version", .num (lit "1")), (lit "kind", .str kindConnections),
    (lit "connections", .arr (ids.map fun id =>
      .obj [(lit "id", .str id), (lit "backend", .str (lit "vnc")), (lit "address", .str (lit "host"))]))]

/-- The library, as far as it is asked of them. -/
def reader : OrgJson where
  text _ := []
  integer
    | .num literal => if literal = lit "1" then some 1 else none
    | _ => none
  finite _ := true

def build : Build where
  ids := [lit "vnc"]
  options _ := []
  appOptions := []
  protect p := some p
  digit c := if 0x30 ≤ c ∧ c ≤ 0x39 then some (c.toNat - 0x30) else none

def appDisk : Disk where
  filesDir := lit "/files"
  isDir p := p ∈ [[], [lit "files"], [lit "files", lit "thumbnails"]]

def uuid (n : Nat) : Text :=
  if n = 0 then lit "7d444840-9dc0-41d1-b245-5ffdce74fad2" else lit "e902893a-9d22-4c7e-a7b8-d6e313b71d9f"

theorem all_nothing (uuids : Nat → Text) (files : List Place) : all reader uuids ⟨some [], files⟩ = [] := by
  rw [all_eq]
  rfl

theorem stored_nothing (files : List Place) : Stored reader ⟨some [], files⟩ where
  reads _ _ := by rw [all_nothing, all_nothing]
  distinct _ := by rw [all_nothing]; exact List.nodup_nil

/-- A document with the id of a file next to the directory is accepted, and to delete the connection deletes that file. -/
theorem import_reaches :
    let there : Place := [lit "files", lit "x.sealed"]
    let s := step reader build appDisk ⟨some [], [there]⟩ (.imported (documentOf [lit "../x"]) false fun _ => uuid)
    accepts reader (documentOf [lit "../x"]) = true ∧ (∀ uuids, idsOf (all reader uuids s) = [lit "../x"]) ∧
      ¬Inside (thumbnailDir appDisk) (thumbnailFile appDisk (lit "../x")) ∧
      there ∈ s.files ∧ ∀ uuids, there ∉ (step reader build appDisk s (.deleted [lit "../x"] uuids)).files := by
  intro there s
  have hleaves := step_leaves build appDisk (stored_nothing [there])
    (.imported (documentOf [lit "../x"]) false fun _ => uuid)
  have hids : ∀ uuids, idsOf (all reader uuids s) = [lit "../x"] := by
    intro uuids
    apply List.perm_singleton.1
    refine (hleaves.ids uuids uuids).trans ?_
    rw [stays, all_nothing]
    exact List.Perm.of_eq (by decide)
  have hstored : Stored reader s := ⟨hleaves.reads, fun uuids => by rw [hids]; exact List.nodup_singleton _⟩
  refine ⟨by decide, hids, ?_, ?_, fun uuids hin => ?_⟩
  · rw [thumbnailFile, inside_newFile suffix_sealed _ (thumbnailDir_ne_nil appDisk) (thumbnailDir_ne_root appDisk)]
    decide
  · rw [hleaves.files]
    exact ⟨List.mem_singleton_self there, nofun⟩
  · have hfiles := (step_leaves build appDisk hstored (.deleted [lit "../x"] uuids)).files there
    have hplace : place appDisk.isDir (thumbnailFile appDisk (lit "../x")) = some there := by decide
    exact (hfiles.1 hin).2 _ (List.mem_singleton_self _) _ List.mem_cons_self hplace

/-- Two records with one id, the second of which is given another. -/
theorem imports_safe_iff_twice :
    let act : Act := .imported (documentOf [lit "x", lit "x"]) false fun _ => uuid
    Safe reader appDisk act ⟨some [], []⟩ (step reader build appDisk ⟨some [], []⟩ act) := by
  intro act
  have hnone : ∀ uuids, idsOf (all reader uuids ⟨some [], []⟩) = [] := by
    intro uuids
    rw [all_nothing]
    rfl
  have hstays : ∀ uuids, stays reader ⟨some [], []⟩ act uuids = [] := by
    intro uuids
    rw [stays, hnone]
    rfl
  have hok : Allowed reader build ⟨some [], []⟩ act := by
    refine ⟨fun _ => nofun, fun uuids => ?_, by decide⟩
    rw [hnone]
    exact ⟨by decide, by decide⟩
  have htidy : Tidy reader build ⟨some [], []⟩ act := by
    refine ⟨by decide, fun uuids => ?_⟩
    rw [hstays, Differ]
    decide
  have hharmless : ∀ uuids, Harmless appDisk (idsOf (all reader uuids ⟨some [], []⟩)) := by
    intro uuids
    rw [hnone]
    exact ⟨nofun, List.Pairwise.nil⟩
  refine (imports_safe_iff reader build appDisk ⟨some [], []⟩ [act] (stored_nothing []) hharmless ⟨hok, fun _ _ => trivial⟩).2 ?_
    [] act [] rfl
  intro pre act' post heq
  cases pre with
  | nil =>
    cases heq
    exact htidy
  | cons a pre => cases pre <;> cases heq

end Documents

end Vento.App.Previews
