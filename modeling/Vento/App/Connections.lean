import Vento.App.Connection
import Vento.App.Files
import Vento.Lib.Groups
import Vento.Lib.Runs
/-!
# The saved connections

`Connections.java`: the list in the preference, rewritten whole by every change from what `all` reads of it, and the
previews on the disk.

The preference is the array that its text is of (`Store.list`), and `uuids` are the random ids of a reading, which a stored
object without an id is given.
-/

namespace Vento.App

open Vento.Lib

/-- The app's directory, and which places are directories. -/
structure Disk where
  filesDir : Text
  isDir : Place → Bool

structure Store where
  /-- Nothing if the text in the preference is not of an array. -/
  list : Option (List Json)
  /-- The files there are. -/
  files : List Place

namespace Connections

/-! ## Previews -/

section Previews

variable (disk : Disk)

def thumbnailDir : Text := newFile disk.filesDir (lit "thumbnails")

def thumbnailFile (id : Text) : Text := newFile (thumbnailDir disk) (id ++ lit ".sealed")

def legacyThumbnailFile (id : Text) : Text := newFile (thumbnailDir disk) (id ++ lit ".png")

def previews (id : Text) : List Text := [thumbnailFile disk id, legacyThumbnailFile disk id]

/-- `File.delete`. -/
def deleteFile (files : List Place) (path : Text) : List Place := files.filter fun there => place disk.isDir path ≠ some there

end Previews

/-! ## The list -/

section List

variable (J : OrgJson) (disk : Disk) (uuids : Nat → Text) (s : Store)

/-- The connections of the file, in its order. -/
def read : List Connection :=
  (s.list.getD []).zipIdx.filterMap fun j => j.1.obj?.map (Connection.fromJson J (uuids j.2))

def all : List Connection := (read J uuids s).mergeSort fun x y => x.pinned || !y.pinned

def write (list : List Connection) : Store := { s with list := some (list.map fun c => .obj c.toJson) }

/-- `conn` in place of the first with its id, or at the end. -/
def replace (conn : Connection) : List Connection → List Connection
  | [] => [conn]
  | c :: list => if c.id = conn.id then conn :: list else c :: replace conn list

def save (conn : Connection) : Store := write s (replace conn (all J uuids s))

def setPinned (ids : List Text) (pinned : Bool) : Store :=
  write s ((all J uuids s).map fun c => if c.id ∈ ids then c.withPinned pinned else c)

/-- The connections that a reordering moves, by id. -/
def movingOf (list : List Connection) (idsInOrder : List Text) : LinkedMap Text Connection :=
  list.foldl (fun moving c => if c.id ∈ idsInOrder then moving.put c.id c else moving) .empty

/-- The loop of `reorder`, which fails where there are no more ids to take. -/
def refill (moving : LinkedMap Text Connection) : List Connection → List Text → Option (List (Option Connection))
  | [], _ => some []
  | c :: list, ids =>
    if (moving.get? c.id).isSome then
      match ids with
      | [] => none
      | id :: ids => (refill moving list ids).map (moving.get? id :: ·)
    else (refill moving list ids).map (some c :: ·)

/-- Nothing is written of a list with a null in it. -/
def reorder (idsInOrder : List Text) : Option Store :=
  let list := all J uuids s
  let moving := movingOf list idsInOrder
  if moving.keys.length ≠ idsInOrder.length then some s
  else (refill moving list idsInOrder).map fun refilled => (refilled.mapM id).elim s (write s)

def addAll (added : List Connection) : Store := if added = [] then s else write s (all J uuids s ++ added)

def delete (ids : List Text) : Store :=
  let s := write s ((all J uuids s).filter fun c => c.id ∉ ids)
  { s with files := ids.foldl (fun files id => (previews disk id).foldl (deleteFile disk) files) s.files }

end List

/-! ## What is read -/

section Read

variable (J : OrgJson) (uuids : Nat → Text) (s : Store)

theorem read_write (list : List Connection) : read J uuids (write s list) = list := by
  have h : ∀ (list : List Connection) (n : Nat), ((list.map fun c => Json.obj c.toJson).zipIdx n).filterMap
      (fun j => j.1.obj?.map (Connection.fromJson J (uuids j.2))) = list := by
    intro list
    induction list with
    | nil => exact fun _ => rfl
    | cons c list ih =>
      intro n
      rw [List.map_cons, List.zipIdx_cons, List.filterMap_cons, Json.obj?_obj, Option.map_some, Connection.fromJson_toJson]
      simp only [ih (n + 1)]
  exact h list 0

theorem all_eq : all J uuids s = groups Connection.pinned (read J uuids s) := mergeSort_eq_groups Connection.pinned _

theorem all_write (list : List Connection) : all J uuids (write s list) = groups Connection.pinned list := by
  rw [all_eq, read_write]

theorem grouped_all : Grouped Connection.pinned (all J uuids s) := by
  rw [all_eq]
  exact grouped_groups

end Read

/-! ## What an operation does -/

inductive Op where
  | save (conn : Connection)
  | setPinned (ids : List Text) (pinned : Bool)
  | reorder (idsInOrder : List Text)
  | delete (ids : List Text)
  | addAll (added : List Connection)

/-- An operation, and the random ids of its reading. -/
structure Call where
  op : Op
  uuids : Nat → Text

def step (J : OrgJson) (disk : Disk) (s : Store) (call : Call) : Option Store :=
  match call.op with
  | .save conn => some (save J call.uuids s conn)
  | .setPinned ids pinned => some (setPinned J call.uuids s ids pinned)
  | .reorder idsInOrder => reorder J call.uuids s idsInOrder
  | .delete ids => some (delete J disk call.uuids s ids)
  | .addAll added => some (addAll J call.uuids s added)

def idsOf (list : List Connection) : List Text := list.map (·.id)

/-- What is added has new ids, no two the same. -/
def AddsNew (J : OrgJson) (s : Store) (call : Call) : Prop :=
  match call.op with
  | .addAll added => (idsOf added).Nodup ∧ ∀ id ∈ idsOf added, id ∉ idsOf (all J call.uuids s)
  | _ => True

namespace Op

/-- The ids that it names. -/
def named : Op → List Text
  | .save conn => [conn.id]
  | .setPinned ids _ => ids
  | .reorder idsInOrder => idsInOrder
  | .delete ids => ids
  | .addAll added => idsOf added

/-- The records that there are to be after it, in any order. -/
def result (before : List Connection) : Op → List Connection
  | .save conn => conn :: before.filter fun c => c.id ≠ conn.id
  | .setPinned ids pinned => before.map fun c => if c.id ∈ ids then c.withPinned pinned else c
  | .reorder _ => before
  | .delete ids => before.filter fun c => c.id ∉ ids
  | .addAll added => before ++ added

end Op

section Pins

variable (before : List Connection) (c : Connection)

/-- Pinned, and not before. -/
def NewlyPinned : Prop := c.pinned = true ∧ ∀ d ∈ before, d.id = c.id → d.pinned = false

def AlreadyPinned : Prop := c.pinned = true ∧ ∃ d ∈ before, d.id = c.id ∧ d.pinned = true

def NewlyUnpinned : Prop := c.pinned = false ∧ ∃ d ∈ before, d.id = c.id ∧ d.pinned = true

def AlreadyUnpinned : Prop := c.pinned = false ∧ ∃ d ∈ before, d.id = c.id ∧ d.pinned = false

end Pins

/-- What there is in the list after an operation, to what there was before. -/
structure Law (op : Op) (before after : List Connection) : Prop where
  distinct : (idsOf after).Nodup
  records : after.Perm (op.result before)
  unnamed : after.filter (fun c => c.id ∉ op.named) = before.filter fun c => c.id ∉ op.named
  /-- None that is newly pinned is before one that was pinned already. -/
  pinnedLast : after.Pairwise fun c d => ¬(NewlyPinned before c ∧ AlreadyPinned before d)
  /-- None that was unpinned already is before one that is newly unpinned. -/
  unpinnedFirst : after.Pairwise fun c d => ¬(AlreadyUnpinned before c ∧ NewlyUnpinned before d)

/-- The connections of `ids`, in that order, in the places that those were in. -/
def Reordered (ids : List Text) (before after : List Connection) : Prop :=
  List.Forall₂ (fun c d => if c.id ∈ ids then d.id ∈ ids else d = c) before after ∧
    idsOf (after.filter fun c => c.id ∈ ids) = ids

/-! ## What is written -/

section Written

variable {L : List Connection}

theorem eq_of_id (hd : (idsOf L).Nodup) {c d : Connection} (hc : c ∈ L) (hd' : d ∈ L) (h : c.id = d.id) : c = d :=
  List.inj_on_of_nodup_map hd hc hd' h

theorem mem_of_was {d : Connection} {pinned : Bool} (h : ∃ c ∈ L, c.id = d.id ∧ c.pinned = pinned) : d.id ∈ idsOf L := by
  obtain ⟨c, hc, hid, -⟩ := h
  exact hid ▸ List.mem_map_of_mem hc

/-- What a change of the list leaves to be sorted. -/
theorem Law.groups {op : Op} {W : List Connection} (hL : Grouped Connection.pinned L) (h : Law op L W) :
    Law op L (groups Connection.pinned W) where
  distinct := ((groups_perm _ W).map _).nodup_iff.2 h.distinct
  records := (groups_perm _ W).trans h.records
  unnamed := by
    rw [filter_groups, h.unnamed]
    exact groups_eq_self (hL.sublist List.filter_sublist)
  pinnedLast := by
    apply pairwise_groups h.pinnedLast
    rintro c d - hd ⟨-, hd', -⟩
    cases hd.symm.trans hd'
  unpinnedFirst := by
    apply pairwise_groups h.unpinnedFirst
    rintro c d hc - ⟨⟨hc', -⟩, -⟩
    cases hc.symm.trans hc'

/-- One of the list is neither newly pinned nor newly unpinned. -/
theorem not_newly (hd : (idsOf L).Nodup) {c : Connection} (hc : c ∈ L) : ¬NewlyPinned L c ∧ ¬NewlyUnpinned L c := by
  constructor
  · rintro ⟨hp, h⟩
    cases hp.symm.trans (h c hc rfl)
  · rintro ⟨hp, d, hdL, hid, hdp⟩
    rw [eq_of_id hd hdL hc hid, hp] at hdp
    cases hdp

/-- A change that leaves records as they are. -/
theorem law_of_subset {op : Op} {W : List Connection} (hd : (idsOf L).Nodup) (hW : (idsOf W).Nodup) (hrecords : W.Perm (op.result L))
    (hunnamed : W.filter (fun c => c.id ∉ op.named) = L.filter fun c => c.id ∉ op.named) (hsub : ∀ c ∈ W, c ∈ L) :
    Law op L W where
  distinct := hW
  records := hrecords
  unnamed := hunnamed
  pinnedLast := by
    apply List.pairwise_of_forall_mem_list
    rintro c hc d - ⟨h, -⟩
    exact (not_newly hd (hsub c hc)).1 h
  unpinnedFirst := by
    apply List.pairwise_of_forall_mem_list
    rintro c - d hd' ⟨-, h⟩
    exact (not_newly hd (hsub d hd')).2 h

/-- What can be said only of one of the list is said of nothing new at its end. -/
theorem pairwise_append_new {P Q : Connection → Prop} {new W : List Connection} (hQ : ∀ d, Q d → d.id ∈ idsOf L)
    (hnew : ∀ c ∈ new, c.id ∉ idsOf L) (hW : W.Pairwise fun c d => ¬(P c ∧ Q d)) :
    (W ++ new).Pairwise fun c d => ¬(P c ∧ Q d) := by
  apply List.pairwise_append.2
  refine ⟨hW, List.pairwise_of_forall_mem_list ?_, ?_⟩
  · rintro c - d hd ⟨-, h⟩
    exact hnew d hd (hQ d h)
  · rintro c - d hd ⟨-, h⟩
    exact hnew d hd (hQ d h)

/-- A change of some records where they are, and new ones at the end. -/
theorem law_of_map {op : Op} {f : Connection → Connection} {new : List Connection} (hL : Grouped Connection.pinned L)
    (hd : (idsOf L).Nodup) (hid : ∀ c ∈ L, (f c).id = c.id) (hf : ∀ c ∈ L, c.id ∉ op.named → f c = c)
    (hnew : ∀ c ∈ new, c.id ∈ op.named ∧ c.id ∉ idsOf L) (hnd : (idsOf new).Nodup)
    (hrecords : (L.map f ++ new).Perm (op.result L)) : Law op L (L.map f ++ new) where
  distinct := by
    have hids : idsOf (L.map f) = idsOf L := by
      rw [idsOf, List.map_map]
      exact List.map_congr_left hid
    rw [idsOf, List.map_append]
    change (idsOf (L.map f) ++ idsOf new).Nodup
    rw [hids]
    refine hd.append hnd ?_
    intro id hmem hmem'
    obtain ⟨c, hc, rfl⟩ := List.mem_map.1 hmem'
    exact (hnew c hc).2 hmem
  records := hrecords
  unnamed := by
    -- All that is new is named.
    have hnone : new.filter (fun c => decide (c.id ∉ op.named)) = [] := by
      apply List.filter_eq_nil_iff.2
      intro c hc
      simpa using (hnew c hc).1
    rw [List.filter_append, hnone, List.append_nil, List.filter_map]
    have hsame : L.filter ((fun c => decide (c.id ∉ op.named)) ∘ f) = L.filter fun c => c.id ∉ op.named := by
      apply List.filter_congr
      intro c hc
      simp only [Function.comp_apply, hid c hc]
    rw [hsame]
    refine (List.map_congr_left ?_).trans (List.map_id _)
    intro c hc
    exact hf c (List.mem_of_mem_filter hc) (by simpa using List.of_mem_filter hc)
  pinnedLast := by
    apply pairwise_append_new (fun d hd => mem_of_was hd.2) fun c hc => (hnew c hc).2
    apply List.pairwise_map.2
    -- Among those that were there, one that was pinned has none before it that was not.
    apply List.Pairwise.imp_of_mem _ hL
    rintro a b ha hb hab ⟨⟨-, ha'⟩, -, d, hdL, hdid, hdp⟩
    rw [eq_of_id hd hdL hb (hdid.trans (hid b hb))] at hdp
    cases (hab hdp).symm.trans (ha' a ha (hid a ha).symm)
  unpinnedFirst := by
    apply pairwise_append_new (fun d hd => mem_of_was hd.2) fun c hc => (hnew c hc).2
    apply List.pairwise_map.2
    apply List.Pairwise.imp_of_mem _ hL
    rintro a b ha hb hab ⟨⟨-, c, hcL, hcid, hcp⟩, -, d, hdL, hdid, hdp⟩
    rw [eq_of_id hd hdL hb (hdid.trans (hid b hb))] at hdp
    rw [eq_of_id hd hcL ha (hcid.trans (hid a ha)), hab hdp] at hcp
    cases hcp

theorem replace_of_notMem {conn : Connection} (h : conn.id ∉ idsOf L) : replace conn L = L ++ [conn] := by
  induction L with
  | nil => rfl
  | cons c L ih =>
    rw [idsOf, List.map_cons, List.mem_cons, not_or] at h
    rw [replace, if_neg (Ne.symm h.1), ih h.2, List.cons_append]

theorem map_replaced {conn : Connection} (h : conn.id ∉ idsOf L) :
    L.map (fun c => if c.id = conn.id then conn else c) = L := by
  refine (List.map_congr_left ?_).trans (List.map_id _)
  intro c hc
  have hne : c.id ≠ conn.id := fun heq => h (heq ▸ List.mem_map_of_mem hc)
  exact if_neg hne

theorem replace_of_mem {conn : Connection} (hd : (idsOf L).Nodup) (h : conn.id ∈ idsOf L) :
    replace conn L = L.map fun c => if c.id = conn.id then conn else c := by
  induction L with
  | nil => cases h
  | cons c L ih =>
    obtain ⟨hc, hd⟩ := List.nodup_cons.1 hd
    by_cases heq : c.id = conn.id
    · rw [replace, if_pos heq, List.map_cons, if_pos heq, map_replaced (heq ▸ hc)]
    · have hmem : conn.id ∈ idsOf L := (List.mem_cons.1 h).resolve_left (Ne.symm heq)
      rw [replace, if_neg heq, ih hd hmem, List.map_cons, if_neg heq]

theorem map_replaced_perm {conn : Connection} (hd : (idsOf L).Nodup) (h : conn.id ∈ idsOf L) :
    (L.map fun c => if c.id = conn.id then conn else c).Perm (conn :: L.filter fun c => c.id ≠ conn.id) := by
  induction L with
  | nil => cases h
  | cons c L ih =>
    obtain ⟨hc, hd⟩ := List.nodup_cons.1 hd
    by_cases heq : c.id = conn.id
    · have hnot : conn.id ∉ idsOf L := heq ▸ hc
      have hall : L.filter (fun c => decide (c.id ≠ conn.id)) = L := by
        apply List.filter_eq_self.2
        intro d hdL
        simp only [decide_eq_true_eq]
        exact fun h => hnot (h ▸ List.mem_map_of_mem hdL)
      rw [List.map_cons, if_pos heq, map_replaced hnot, List.filter_cons_of_neg (by simp [heq]), hall]
    · have hmem : conn.id ∈ idsOf L := (List.mem_cons.1 h).resolve_left (Ne.symm heq)
      rw [List.map_cons, if_neg heq, List.filter_cons_of_pos (by simp [heq])]
      exact ((ih hd hmem).cons c).trans (List.Perm.swap conn c _)

theorem law_save (hL : Grouped Connection.pinned L) (hd : (idsOf L).Nodup) (conn : Connection) :
    Law (.save conn) L (replace conn L) := by
  by_cases h : conn.id ∈ idsOf L
  · -- The record takes the place of the one that there is.
    have hperm := map_replaced_perm hd h
    rw [replace_of_mem hd h, ← List.append_nil (L.map _)]
    refine law_of_map hL hd ?_ ?_ nofun List.nodup_nil (by rwa [List.append_nil])
    · intro c _
      split
      · next heq => exact heq.symm
      · rfl
    · intro c _ hc
      exact if_neg fun heq => hc (List.mem_singleton.2 heq)
  · -- It goes to the end, as one that is added does.
    have hall : L.filter (fun c => decide (c.id ≠ conn.id)) = L := by
      apply List.filter_eq_self.2
      intro d hdL
      simp only [decide_eq_true_eq]
      exact fun heq => h (heq ▸ List.mem_map_of_mem hdL)
    have hperm : (L.map id ++ [conn]).Perm (Op.result L (.save conn)) := by
      rw [Op.result, hall, List.map_id]
      exact List.perm_append_singleton conn L
    have hnew : ∀ c ∈ [conn], c.id ∈ (Op.save conn).named ∧ c.id ∉ idsOf L := by
      intro c hc
      rw [List.mem_singleton.1 hc]
      exact ⟨List.mem_singleton_self _, h⟩
    have hlaw := law_of_map (f := id) hL hd (fun _ _ => rfl) (fun _ _ _ => rfl) hnew (List.nodup_singleton conn.id) hperm
    rwa [List.map_id, ← replace_of_notMem h] at hlaw

theorem law_setPinned (hL : Grouped Connection.pinned L) (hd : (idsOf L).Nodup) (ids : List Text) (pinned : Bool) :
    Law (.setPinned ids pinned) L (L.map fun c => if c.id ∈ ids then c.withPinned pinned else c) := by
  rw [← List.append_nil (L.map _)]
  refine law_of_map hL hd ?_ ?_ nofun List.nodup_nil (by rw [List.append_nil]; exact List.Perm.refl _)
  · intro c _
    split <;> rfl
  · intro c _ hc
    exact if_neg hc

theorem law_addAll (hL : Grouped Connection.pinned L) (hd : (idsOf L).Nodup) {added : List Connection}
    (hnd : (idsOf added).Nodup) (hnew : ∀ id ∈ idsOf added, id ∉ idsOf L) : Law (.addAll added) L (L ++ added) := by
  have hperm : (L.map id ++ added).Perm (Op.result L (.addAll added)) := by
    rw [List.map_id]
    exact List.Perm.refl _
  have hnew : ∀ c ∈ added, c.id ∈ (Op.addAll added).named ∧ c.id ∉ idsOf L := by
    intro c hc
    exact ⟨List.mem_map_of_mem hc, hnew _ (List.mem_map_of_mem hc)⟩
  have hlaw := law_of_map (f := id) hL hd (fun _ _ => rfl) (fun _ _ _ => rfl) hnew hnd hperm
  rwa [List.map_id] at hlaw

theorem law_delete (hd : (idsOf L).Nodup) (ids : List Text) : Law (.delete ids) L (L.filter fun c => c.id ∉ ids) := by
  refine law_of_subset hd (hd.sublist (List.filter_sublist.map _)) (List.Perm.refl _) ?_ fun c hc => List.mem_of_mem_filter hc
  rw [Op.named, List.filter_filter]
  apply List.filter_congr
  intro c _
  rw [Bool.and_self]

/-! ## Reordering -/

section Reorder

variable {ids : List Text}

/-- The connections that a reordering moves. -/
def moved (ids : List Text) (L : List Connection) : List Connection := L.filter fun c => c.id ∈ ids

theorem entries_movingOf (hd : (idsOf L).Nodup) : (movingOf L ids).entries = (moved ids L).map fun c => (c.id, c) := by
  have h : ∀ (L : List Connection) (m : LinkedMap Text Connection), (m.keys ++ idsOf L).Nodup →
      (L.foldl (fun moving c => if c.id ∈ ids then moving.put c.id c else moving) m).entries =
        m.entries ++ (moved ids L).map fun c => (c.id, c) := by
    intro L
    induction L with
    | nil => exact fun m _ => (List.append_nil _).symm
    | cons c L ih =>
      intro m hnd
      have hnot : c.id ∉ m.keys := fun hmem => List.disjoint_of_nodup_append hnd hmem List.mem_cons_self
      rw [List.foldl_cons, moved]
      by_cases hc : c.id ∈ ids
      · have hput : (m.put c.id c).entries = m.entries ++ [(c.id, c)] := put_of_notMem c hnot
        have hkeys : (m.put c.id c).keys = m.keys ++ [c.id] := by
          rw [LinkedMap.keys, hput, List.map_append]
          rfl
        rw [if_pos hc, List.filter_cons_of_pos (by simpa using hc), ih (m.put c.id c) (by rw [hkeys]; simpa [idsOf] using hnd),
          hput, List.append_assoc, List.map_cons, List.singleton_append, moved]
      · rw [if_neg hc, List.filter_cons_of_neg (by simpa using hc), ih m, moved]
        exact hnd.sublist ((List.sublist_cons_self c.id _).append_left _)
  exact h L .empty hd

theorem keys_movingOf (hd : (idsOf L).Nodup) : (movingOf L ids).keys = idsOf (moved ids L) := by
  rw [LinkedMap.keys, entries_movingOf hd, List.map_map]
  rfl

/-- The ids are of connections of the list, no two of the same. -/
def Lists (ids : List Text) (L : List Connection) : Prop := ids.Nodup ∧ ∀ id ∈ ids, id ∈ idsOf L

instance (ids : List Text) (L : List Connection) : Decidable (Lists ids L) := inferInstanceAs (Decidable (_ ∧ _))

theorem mem_moved_iff {c : Connection} : c ∈ moved ids L ↔ c ∈ L ∧ c.id ∈ ids := by
  rw [moved, List.mem_filter, decide_eq_true_eq]

theorem mem_moved {id : Text} : id ∈ idsOf (moved ids L) ↔ id ∈ ids ∧ id ∈ idsOf L := by
  constructor
  · intro h
    obtain ⟨c, hc, rfl⟩ := List.mem_map.1 h
    exact ⟨(mem_moved_iff.1 hc).2, List.mem_map_of_mem (mem_moved_iff.1 hc).1⟩
  · rintro ⟨hid, h⟩
    obtain ⟨c, hc, rfl⟩ := List.mem_map.1 h
    exact List.mem_map_of_mem (mem_moved_iff.2 ⟨hc, hid⟩)

theorem nodup_moved (hd : (idsOf L).Nodup) : (idsOf (moved ids L)).Nodup := hd.sublist (List.filter_sublist.map _)

theorem Lists.perm (hd : (idsOf L).Nodup) (h : Lists ids L) : ids.Perm (idsOf (moved ids L)) :=
  (List.perm_ext_iff_of_nodup h.1 (nodup_moved hd)).2 fun id => ⟨fun hid => mem_moved.2 ⟨hid, h.2 id hid⟩, fun hid => (mem_moved.1 hid).1⟩

/-- As many are found as were given exactly if each was, once. -/
theorem length_moving_iff (hd : (idsOf L).Nodup) : (movingOf L ids).keys.length = ids.length ↔ Lists ids L := by
  rw [keys_movingOf hd]
  constructor
  · intro hlen
    have hsub : (idsOf (moved ids L)).Subperm ids := List.subperm_of_subset (nodup_moved hd) fun id hid => (mem_moved.1 hid).1
    have hperm := hsub.perm_of_length_le (Nat.le_of_eq hlen.symm)
    exact ⟨hperm.nodup_iff.1 (nodup_moved hd), fun id hid => (mem_moved.1 (hperm.mem_iff.2 hid)).2⟩
  · intro h
    exact (h.perm hd).length_eq.symm

theorem get?_movingOf (hd : (idsOf L).Nodup) {c : Connection} (hc : c ∈ moved ids L) : (movingOf L ids).get? c.id = some c := by
  rw [LinkedMap.get?, entries_movingOf hd]
  have hnd : (((moved ids L).map fun c => (c.id, c)).map Prod.fst).Nodup := by
    rw [List.map_map]
    exact nodup_moved hd
  exact lookup_of_mem hnd (List.mem_map_of_mem (f := fun c => (c.id, c)) hc)

theorem isSome_get?_movingOf (hd : (idsOf L).Nodup) {c : Connection} (hc : c ∈ L) :
    ((movingOf L ids).get? c.id).isSome = decide (c.id ∈ ids) := by
  by_cases hid : c.id ∈ ids
  · rw [get?_movingOf hd (mem_moved_iff.2 ⟨hc, hid⟩)]
    simp [hid]
  · have hnone : (movingOf L ids).get? c.id = none := by
      apply List.lookup_eq_none_iff.2
      intro e he
      rw [entries_movingOf hd] at he
      obtain ⟨d, hd', rfl⟩ := List.mem_map.1 he
      exact bne_iff_ne.2 fun heq => hid (heq ▸ (mem_moved_iff.1 hd').2)
    simp [hnone, hid]

theorem refill_cons_neg {moving : LinkedMap Text Connection} {c : Connection} {list : List Connection}
    (h : (moving.get? c.id).isSome = false) : refill moving (c :: list) ids = (refill moving list ids).map (some c :: ·) := by
  cases ids <;> simp [refill, h]

theorem refill_cons_pos {moving : LinkedMap Text Connection} {c : Connection} {list : List Connection} {id : Text}
    (h : (moving.get? c.id).isSome = true) :
    refill moving (c :: list) (id :: ids) = (refill moving list ids).map (moving.get? id :: ·) := by
  simp [refill, h]

theorem refill_eq {moving : LinkedMap Text Connection} {q : Connection → Bool} {L : List Connection} {vs : List Connection}
    (hq : ∀ c ∈ L, (moving.get? c.id).isSome = q c) (hget : ids.map moving.get? = vs.map some)
    (hlen : (L.filter q).length = vs.length) : refill moving L ids = some ((fill q L vs).map some) := by
  -- An id and a value are taken at each place that moves, and none elsewhere.
  induction L generalizing ids vs with
  | nil => cases vs with
    | nil => rfl
    | cons v vs => cases hlen
  | cons c L ih =>
    obtain ⟨hc, hq⟩ := List.forall_mem_cons.1 hq
    cases hqc : q c with
    | false =>
      rw [List.filter_cons_of_neg (by simp [hqc])] at hlen
      rw [refill_cons_neg (hc.trans hqc), ih hq hget hlen, fill_cons_neg hqc]
      rfl
    | true =>
      rw [List.filter_cons_of_pos hqc] at hlen
      cases vs with
      | nil => cases hlen
      | cons v vs =>
        cases ids with
        | nil => cases hget
        | cons id ids =>
          rw [List.map_cons, List.map_cons, List.cons.injEq] at hget
          rw [refill_cons_pos (hc.trans hqc), ih hq hget.2 (Nat.succ.inj hlen), fill_cons_pos hqc, hget.1]
          rfl

/-- The connections of the ids, which are those that move. -/
theorem exists_values (hd : (idsOf L).Nodup) (h : Lists ids L) :
    ∃ vs, ids.map (movingOf L ids).get? = vs.map some ∧ idsOf vs = ids ∧ vs.Perm (moved ids L) := by
  have hall : ∀ is : List Text, (∀ id ∈ is, id ∈ idsOf (moved ids L)) →
      ∃ vs, is.map (movingOf L ids).get? = vs.map some ∧ idsOf vs = is ∧ ∀ v ∈ vs, v ∈ moved ids L := by
    intro is
    induction is with
    | nil => exact fun _ => ⟨[], rfl, rfl, nofun⟩
    | cons i is ih =>
      intro hin
      obtain ⟨hi, hin⟩ := List.forall_mem_cons.1 hin
      obtain ⟨vs, hget, hids, hmem⟩ := ih hin
      obtain ⟨c, hc, rfl⟩ := List.mem_map.1 hi
      refine ⟨c :: vs, ?_, ?_, List.forall_mem_cons.2 ⟨hc, hmem⟩⟩
      · rw [List.map_cons, List.map_cons, get?_movingOf hd hc, hget]
      · rw [idsOf, List.map_cons]
        exact congrArg _ hids
  obtain ⟨vs, hget, hids, hmem⟩ := hall ids fun id hid => mem_moved.2 ⟨hid, h.2 id hid⟩
  refine ⟨vs, hget, hids, ?_⟩
  -- Neither list has one twice, so that each of the one is to be found in the other.
  have hndids : (idsOf vs).Nodup := by
    rw [hids]
    exact h.1
  have hnd : vs.Nodup := List.Nodup.of_map _ hndids
  refine (List.perm_ext_iff_of_nodup hnd (List.Nodup.of_map _ (nodup_moved hd))).2 fun c => ⟨hmem c, ?_⟩
  intro hc
  have hid : c.id ∈ idsOf vs := by
    rw [hids]
    exact (mem_moved_iff.1 hc).2
  obtain ⟨v, hv, heq⟩ := List.mem_map.1 hid
  exact eq_of_id hd (mem_moved_iff.1 (hmem v hv)).1 (mem_moved_iff.1 hc).1 heq ▸ hv

theorem mapM_some (list : List Connection) : (list.map some).mapM id = some list := by
  induction list with
  | nil => rfl
  | cons c list ih => simp [List.mapM_cons, ih]

variable {J : OrgJson} {uuids : Nat → Text} {s : Store}

theorem reorder_of_not (h : (idsOf (all J uuids s)).Nodup) (hnot : ¬Lists ids (all J uuids s)) :
    reorder J uuids s ids = some s :=
  if_pos fun hlen => hnot ((length_moving_iff h).1 hlen)

theorem reorder_of_lists (h : (idsOf (all J uuids s)).Nodup) (hids : Lists ids (all J uuids s)) :
    ∃ vs, idsOf vs = ids ∧ vs.Perm (moved ids (all J uuids s)) ∧
      reorder J uuids s ids = some (write s (fill (fun c => c.id ∈ ids) (all J uuids s) vs)) := by
  obtain ⟨vs, hget, hvs, hperm⟩ := exists_values h hids
  refine ⟨vs, hvs, hperm, ?_⟩
  have hrefill := refill_eq (fun c hc => isSome_get?_movingOf h hc) hget hperm.length_eq.symm
  rw [reorder, if_neg (not_not.2 ((length_moving_iff h).2 hids)), hrefill, Option.map_some, mapM_some]
  rfl

theorem law_reorder (hd : (idsOf L).Nodup) {vs : List Connection} (hperm : vs.Perm (moved ids L)) :
    Law (.reorder ids) L (fill (fun c => c.id ∈ ids) L vs) := by
  have hvs : ∀ v ∈ vs, decide (v.id ∈ ids) = true := fun v hv => decide_eq_true (mem_moved_iff.1 (hperm.mem_iff.1 hv)).2
  have hlen : (L.filter fun c => decide (c.id ∈ ids)).length = vs.length := hperm.length_eq.symm
  have hfill := fill_perm hvs hlen hperm
  refine law_of_subset hd ((hfill.map _).nodup_iff.2 hd) hfill ?_ fun c hc => hfill.mem_iff.1 hc
  have hfilter := filter_not_fill hvs hlen
  simp only [← decide_not] at hfilter
  exact hfilter

/-- Where the ids are of one group, what is read then is in the order that was written. -/
theorem reordered (hL : Grouped Connection.pinned L) {vs : List Connection} (hids : idsOf vs = ids)
    (hperm : vs.Perm (moved ids L)) {pinned : Bool} (hgroup : ∀ c ∈ L, c.id ∈ ids → c.pinned = pinned) :
    Reordered ids L (groups Connection.pinned (fill (fun c => c.id ∈ ids) L vs)) := by
  have hvs : ∀ v ∈ vs, decide (v.id ∈ ids) = true := fun v hv => decide_eq_true (mem_moved_iff.1 (hperm.mem_iff.1 hv)).2
  have hlen : (L.filter fun c => decide (c.id ∈ ids)).length = vs.length := hperm.length_eq.symm
  have hsame : ∀ v ∈ vs, v.pinned = pinned := by
    intro v hv
    exact hgroup v (mem_moved_iff.1 (hperm.mem_iff.1 hv)).1 (mem_moved_iff.1 (hperm.mem_iff.1 hv)).2
  rw [groups_eq_self (grouped_fill hL (fun c hc hq => hgroup c hc (by simpa using hq)) hsame)]
  constructor
  · simpa using forall₂_fill hvs hlen
  · rw [filter_fill hvs hlen, hids]

end Reorder

end Written

/-! ## Runs -/

section Runs

variable {J : OrgJson} {disk : Disk} {s : Store} {call : Call}

/-- Reading gives one list, whatever the random ids are, and no two of it have the same id. -/
structure Stored (J : OrgJson) (s : Store) : Prop where
  reads : ∀ uuids uuids', all J uuids s = all J uuids' s
  distinct : ∀ uuids, (idsOf (all J uuids s)).Nodup

/-- Nothing that is read is of the files. -/
theorem all_congr {s s' : Store} (h : s.list = s'.list) (uuids : Nat → Text) : all J uuids s = all J uuids s' := by
  rw [all, all, read, read, h]

variable (disk) in
/-- An operation can happen, and leaves the list as it was or writes it anew. -/
theorem step_cases (hs : Stored J s) (hnew : AddsNew J s call) :
    ∃ s', step J disk s call = some s' ∧ ((s' = s ∧ Law call.op (all J call.uuids s) (all J call.uuids s)) ∨
      ∃ W, s'.list = (write s W).list ∧ Law call.op (all J call.uuids s) W) := by
  obtain ⟨op, uuids⟩ := call
  have hd := hs.distinct uuids
  have hL := grouped_all J uuids s
  cases op with
  | save conn => exact ⟨_, rfl, .inr ⟨_, rfl, law_save hL hd conn⟩⟩
  | setPinned ids pinned => exact ⟨_, rfl, .inr ⟨_, rfl, law_setPinned hL hd ids pinned⟩⟩
  | reorder ids =>
    by_cases hids : Lists ids (all J uuids s)
    · obtain ⟨vs, -, hperm, heq⟩ := reorder_of_lists hd hids
      exact ⟨_, heq, .inr ⟨_, rfl, law_reorder hd hperm⟩⟩
    · exact ⟨_, reorder_of_not hd hids, .inl ⟨rfl, law_of_subset hd hd (List.Perm.refl _) rfl fun _ hc => hc⟩⟩
  | delete ids => exact ⟨_, rfl, .inr ⟨_, rfl, law_delete hd ids⟩⟩
  | addAll added =>
    have hlaw := law_addAll hL hd hnew.1 hnew.2
    by_cases hadded : added = []
    · subst hadded
      rw [List.append_nil] at hlaw
      exact ⟨s, rfl, .inl ⟨rfl, hlaw⟩⟩
    · exact ⟨_, congrArg some (if_neg hadded), .inr ⟨_, rfl, hlaw⟩⟩

variable (disk) in
/-- What an operation leaves is stored, and follows from what was before. -/
theorem step_law (hs : Stored J s) (hnew : AddsNew J s call) :
    ∃ s', step J disk s call = some s' ∧ Stored J s' ∧ ∀ uuids uuids', Law call.op (all J uuids s) (all J uuids' s') := by
  obtain ⟨s', hstep, ⟨rfl, hlaw⟩ | ⟨W, hlist, hlaw⟩⟩ := step_cases disk hs hnew
  · refine ⟨s', hstep, hs, fun uuids uuids' => ?_⟩
    rw [hs.reads uuids call.uuids, hs.reads uuids' call.uuids]
    exact hlaw
  · have hall : ∀ uuids, all J uuids s' = groups Connection.pinned W := by
      intro uuids
      rw [all_congr hlist, all_write]
    have hlaw := hlaw.groups (grouped_all J call.uuids s)
    refine ⟨s', hstep, ⟨fun uuids uuids' => ?_, fun uuids => ?_⟩, fun uuids uuids' => ?_⟩
    · rw [hall, hall]
    · rw [hall]
      exact hlaw.distinct
    · rw [hs.reads uuids call.uuids, hall]
      exact hlaw

/-- Ids of one group are put in their order in the places that they held, or nothing changes. -/
theorem reorder_law (hs : Stored J s) {ids : List Text} {pinned : Bool} (uuids uuids' uuids'' : Nat → Text) {s' : Store}
    (h : reorder J uuids s ids = some s') (hgroup : ∀ c ∈ all J uuids' s, c.id ∈ ids → c.pinned = pinned) :
    if Lists ids (all J uuids' s) then Reordered ids (all J uuids' s) (all J uuids'' s') else s' = s := by
  rw [hs.reads uuids' uuids] at hgroup ⊢
  split
  · next hids =>
    obtain ⟨vs, hvs, hperm, heq⟩ := reorder_of_lists (hs.distinct uuids) hids
    cases h.symm.trans heq
    rw [all_write]
    exact reordered (grouped_all J uuids s) hvs hperm hgroup
  · next hids => exact Option.some.inj (h.symm.trans (reorder_of_not (hs.distinct uuids) hids))

/-- In every run of operations that add only what is new: none fails, each leaves what `Law` says, and a reordering of ids
of one group is done whole or not at all. And the pinned ones are always shown first. -/
theorem order_laws (J : OrgJson) (disk : Disk) (s₀ : Store) (calls : List Call) (hs : Stored J s₀)
    (hnew : Meets (step J disk) (AddsNew J) s₀ calls) :
    (∃ t, run (step J disk) s₀ calls = some t) ∧ (∀ s uuids, Grouped Connection.pinned (all J uuids s)) ∧
      ∀ pre call post, calls = pre ++ call :: post → ∀ s s', run (step J disk) s₀ pre = some s →
        step J disk s call = some s' → ∀ uuids uuids', Law call.op (all J uuids s) (all J uuids' s') ∧
          ∀ ids pinned, call.op = .reorder ids → (∀ c ∈ all J uuids s, c.id ∈ ids → c.pinned = pinned) →
            if Lists ids (all J uuids s) then Reordered ids (all J uuids s) (all J uuids' s') else s' = s := by
  have hkept : ∀ {pre s}, Meets (step J disk) (AddsNew J) s₀ pre → run (step J disk) s₀ pre = some s → Stored J s := by
    intro pre s hm hr
    refine trace_inv (fun _ s => Stored J s) hs ?_ hm hr
    intro _ s call s' hs hnew hstep
    obtain ⟨t, ht, hstored, -⟩ := step_law disk hs hnew
    cases hstep.symm.trans ht
    exact hstored
  refine ⟨?_, fun s uuids => grouped_all J uuids s, ?_⟩
  · -- A step from what is stored never fails, and comes to what is stored.
    clear hkept
    induction calls generalizing s₀ with
    | nil => exact ⟨s₀, rfl⟩
    | cons call calls ih =>
      obtain ⟨s', hstep, hs', -⟩ := step_law disk hs hnew.1
      obtain ⟨t, ht⟩ := ih s' hs' (hnew.2 s' hstep)
      exact ⟨t, by rw [run_cons, hstep]; exact ht⟩
  · rintro pre call post rfl s s' hr hstep uuids uuids'
    have hs := hkept hnew.append_left hr
    have hnew := (hnew.append_right hr).1
    obtain ⟨t, ht, -, hlaw⟩ := step_law disk hs hnew
    cases hstep.symm.trans ht
    refine ⟨hlaw uuids uuids', ?_⟩
    rintro ids pinned hop hgroup
    obtain ⟨op, uuids₀⟩ := call
    cases hop
    exact reorder_law hs uuids₀ uuids uuids' hstep hgroup

/-- Two pinned ones are put in the other order. -/
theorem order_laws_two :
    let J : OrgJson := ⟨fun _ => [], fun _ => none, fun _ => true⟩
    let disk : Disk := ⟨lit "/files", fun _ => true⟩
    let a : Connection := ⟨lit "a", [], lit "vnc", lit "10.0.0.1", [], [], .empty, true⟩
    let b : Connection := { a with id := lit "b" }
    let s := write ⟨none, []⟩ [b, a]
    let call : Call := ⟨.reorder [lit "a", lit "b"], fun _ => lit "u"⟩
    ∃ t, run (step J disk) s [call] = some t ∧ ∀ uuids, Reordered [lit "a", lit "b"] [b, a] (all J uuids t) := by
  intro J disk a b s call
  have hall : ∀ uuids, all J uuids s = [b, a] := fun uuids => all_write J uuids _ _
  have hs : Stored J s := ⟨fun _ _ => by rw [hall, hall], fun _ => by rw [hall]; decide⟩
  obtain ⟨⟨t, ht⟩, -, hlaw⟩ := order_laws J disk s [call] hs ⟨trivial, fun _ _ => trivial⟩
  refine ⟨t, ht, fun uuids => ?_⟩
  have hstep : step J disk s call = some t := by
    obtain ⟨t', ht', h⟩ := run_cons_some ht
    cases h
    exact ht'
  have h := (hlaw [] call [] rfl s t rfl hstep uuids uuids).2 _ true rfl (by rw [hall]; decide)
  rw [hall, if_pos (by decide)] at h
  exact h

end Runs

end Connections

end Vento.App
