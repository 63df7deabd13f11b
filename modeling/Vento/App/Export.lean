import Vento.App.Transfer
/-!
# Exporting connections

`Transfer.java`'s way out: the document that is written of the connections, with their passwords in plain text or without. A
document is imported as it was exported, under the conditions of `Portable`.
-/

namespace Vento.App

open Vento.Lib

namespace Transfer

section Export

variable (reveal : Text → Text) (passwords : Bool)

/-- Without a password it has none, rather than an empty one. -/
def exportConnection (c : Connection) : Obj :=
  let o := put (lit "id") (.str c.id) []
  let o := put (lit "name") (.str c.name) o
  let o := put (lit "backend") (.str c.backendId) o
  let o := put (lit "address") (.str c.address) o
  let o := put (lit "user") (.str c.userName) o
  let o := if passwords then put (lit "password") (.str (reveal c.sealedPassword)) o else o
  let o := put (lit "options") (.obj (c.options.entries.map fun e => (e.1, .str e.2))) o
  put (lit "pinned") (.bool c.pinned) o

/-- `write` of the connections; `reveal` is the keystore's. -/
def writeConnections (connections : List Connection) : Document :=
  let out := connections.map fun c => Json.obj (exportConnection reveal passwords c)
  let root := put (lit "format") (.str format) []
  let root := put (lit "kind") (.str kindConnections) root
  let root := put (lit "version") (.num (lit "1")) root
  ⟨kindConnections, put (lit "connections") (.arr out) root, out.length⟩

end Export

/-! ## What is read of a record -/

/-- What an import takes as it is. -/
structure Portable (b : Build) (reveal : Text → Text) (c : Connection) : Prop where
  backend : c.backendId ∈ b.ids
  name : plain c.name maxField = true
  address : plain c.address maxField = true
  user : plain c.userName maxField = true
  password : plain (reveal c.sealedPassword) maxSecret = true
  hasAddress : c.address ≠ []
  hasId : c.id ≠ []
  id : c.id.length ≤ maxField
  options : ∀ e ∈ c.options.entries, ∃ o, (schema b c.backendId).get? e.1 = some o ∧ valid b o e.2 = true

/-- What it is imported as, with the passwords there are by id. -/
def restored (b : Build) (reveal : Text → Text) (passwords : Bool) (known : LinkedMap Text Text) (c : Connection) : Connection :=
  if passwords then c.withPassword b.protect (reveal c.sealedPassword)
  else { c with sealedPassword := (known.get? c.id).getD [] }

section Record

variable {J : OrgJson} {b : Build} {reveal : Text → Text} {passwords : Bool} {c : Connection}

/-- All of a connection's options are those of its backend, and valid. -/
theorem options_exported (h : Portable b reveal c) :
    Transfer.options J b (some (c.options.entries.map fun e => (e.1, .str e.2))) c.backendId = c.options := by
  have hread : ∀ e ∈ c.options.entries,
      optString J (c.options.entries.map fun e => (e.1, Json.str e.2)) e.1 [] = e.2 := fun e he =>
    Connection.optString_storedOptions J c he
  have hall : Transfer.options J b (some (c.options.entries.map fun e => (e.1, .str e.2))) c.backendId =
      c.options.entries.foldl (fun out e => out.put e.1 e.2) .empty := by
    refine List.foldl_map.trans (List.foldl_ext _ _ _ fun out e he => ?_)
    obtain ⟨o, ho, hv⟩ := h.options e he
    simp only [ho, hread e he, hv, if_true]
  have hput := LinkedMap.entries_foldl (fun e : Text × Text => e.2) .empty c.options.entries
  have hnodup : ((LinkedMap.empty : LinkedMap Text Text).entries.map Prod.fst ++ c.options.entries.map Prod.fst).Nodup :=
    c.options.distinct
  rw [foldl_put _ _ hnodup] at hput
  refine hall.trans (LinkedMap.ext (hput.trans ?_))
  exact List.map_id _

/-- A record that was exported is used, under its own id where that is free. -/
theorem connection_exported (h : Portable b reveal c) (uuid : Text) {taken : List Text} (hid : c.id ∉ taken)
    (known : LinkedMap Text Text) :
    Transfer.connection J b uuid (exportConnection reveal passwords c) taken known = some (restored b reveal passwords known c) := by
  have hbackend : optString J (exportConnection reveal passwords c) (lit "backend") [] = c.backendId := by cases passwords <;> rfl
  have hname : optString J (exportConnection reveal passwords c) (lit "name") [] = c.name := by cases passwords <;> rfl
  have haddress : optString J (exportConnection reveal passwords c) (lit "address") [] = c.address := by cases passwords <;> rfl
  have huser : optString J (exportConnection reveal passwords c) (lit "user") [] = c.userName := by cases passwords <;> rfl
  have hidOf : optString J (exportConnection reveal passwords c) (lit "id") [] = c.id := by cases passwords <;> rfl
  have hopts : optJSONObject (exportConnection reveal passwords c) (lit "options") =
      some (c.options.entries.map fun e => (e.1, .str e.2)) := by cases passwords <;> rfl
  have hpinned : optBoolean (exportConnection reveal passwords c) (lit "pinned") = c.pinned := by cases passwords <;> rfl
  have hpassword : optString J (exportConnection reveal passwords c) (lit "password") [] =
      if passwords then reveal c.sealedPassword else [] := by cases passwords <;> rfl
  have hhas : has (exportConnection reveal passwords c) (lit "password") = passwords := by cases passwords <;> rfl
  have hplain : plain (if passwords then reveal c.sealedPassword else []) maxSecret = true := by
    cases passwords with
    | true => exact h.password
    | false => rfl
  have hown : ¬(c.id = [] ∨ maxField < c.id.length ∨ c.id ∈ taken) := by
    rintro (hnil | hlong | hin)
    · exact h.hasId hnil
    · exact absurd h.id (Nat.not_le.2 hlong)
    · exact hid hin
  rw [Transfer.connection]
  simp only [hbackend, hname, haddress, huser, hidOf, hopts, hpinned, hpassword, hhas, h.backend, h.name, h.address, h.user, hplain,
    h.hasAddress, hown, options_exported h, not_true_eq_false, if_false, Bool.not_true, Bool.or_false, Bool.false_eq_true]
  rw [restored]
  cases passwords <;> rfl

end Record

/-- The passwords by id, as an import keeps them. -/
def passwordsOf (list : List Connection) : LinkedMap Text Text :=
  list.foldl (fun known c => known.put c.id c.sealedPassword) .empty

/-! ## The document -/

section Document

variable {J : OrgJson} {b : Build} {reveal : Text → Text} {passwords : Bool}

theorem imported_exported (uuids : Nat → Text) (known : LinkedMap Text Text) {L : List Connection} {taken : List Text} (n : Nat)
    (hL : ∀ c ∈ L, Portable b reveal c) (hids : (Connections.idsOf L).Nodup) (htaken : ∀ c ∈ L, c.id ∉ taken) :
    imported J b uuids known ((L.map fun c => Json.obj (exportConnection reveal passwords c)).zipIdx n) taken =
      L.map (restored b reveal passwords known) := by
  induction L generalizing n taken with
  | nil => rfl
  | cons c L ih =>
    obtain ⟨hc, hL⟩ := List.forall_mem_cons.1 hL
    obtain ⟨hnot, hids⟩ := List.nodup_cons.1 hids
    rw [List.map_cons, List.zipIdx_cons, imported, Json.obj?_obj, Option.bind_some,
      connection_exported hc _ (htaken c List.mem_cons_self) known]
    dsimp only
    have hid : (restored b reveal passwords known c).id = c.id := by
      rw [restored]
      split <;> rfl
    rw [List.map_cons, hid, ih (n + 1) hL hids]
    intro d hd hmem
    rcases List.mem_cons.1 hmem with heq | hmem
    · have hin : d.id ∈ Connections.idsOf L := List.mem_map_of_mem hd
      rw [heq] at hin
      exact hnot hin
    · exact htaken d (List.mem_cons_of_mem c hd) hmem

/-- The document opens as it was written. -/
theorem openDocument_writeConnections (hJ : J.integer (.num (lit "1")) = some 1) (L : List Connection) :
    openDocument J (writeConnections reveal passwords L).root = some (writeConnections reveal passwords L) := by
  have hformat : optString J (writeConnections reveal passwords L).root (lit "format") [] = format := rfl
  have hversion : optInt J (writeConnections reveal passwords L).root (lit "version") = 1 := by
    have hlook : (writeConnections reveal passwords L).root.lookup (lit "version") = some (.num (lit "1")) := rfl
    rw [optInt, hlook, Option.bind_some, hJ]
    rfl
  have hkind : optString J (writeConnections reveal passwords L).root (lit "kind") [] = kindConnections := rfl
  have harray : optJSONArray (writeConnections reveal passwords L).root (lit "connections") =
      some (L.map fun c => Json.obj (exportConnection reveal passwords c)) := rfl
  rw [openDocument]
  simp only [hformat, hversion, hkind, harray, ne_eq, not_true_eq_false, if_false, version]
  rw [if_neg (by decide), if_pos trivial]
  simp only [writeConnections, Option.map_some, Option.getD_some]

/-! ## An import of an export -/

variable (disk : Disk) (uuids : Nat → Nat → Text)

/-- A store that was written is empty once all of it is deleted. -/
theorem all_delete (L : List Connection) (s : Store) (u u' u'' : Nat → Text) :
    Connections.all J u'' (Connections.delete J disk u' (Connections.write s L)
      ((Connections.all J u (Connections.write s L)).map (·.id))) = [] := by
  have hnil : ((Connections.all J u' (Connections.write s L)).filter fun c =>
      c.id ∉ (Connections.all J u (Connections.write s L)).map (·.id)) = [] := by
    rw [Connections.all_write, Connections.all_write]
    refine List.filter_eq_nil_iff.2 fun c hc => ?_
    simp only [decide_eq_true_eq, not_not]
    exact List.mem_map_of_mem hc
  rw [Connections.delete, hnil]
  exact Connections.all_write J u'' ⟨none, _⟩ []

/-- What an export of a list is imported as, in place of what there was. -/
theorem applyConnections_exported (passwords : Bool) {L : List Connection} (L' : List Connection) (s : Store)
    (hL : ∀ c ∈ L, Portable b reveal c) (hids : (Connections.idsOf L).Nodup) (hlen : L.length ≤ maxRecords) (hgrouped : Grouped Connection.pinned L) (u : Nat → Text) :
    let r := applyConnections J b disk uuids (Connections.write s L') (writeConnections reveal passwords L).root true
    let known := passwordsOf (groups Connection.pinned L')
    Connections.all J u r.1 = L.map (restored b reveal passwords known) ∧ r.2 = ⟨L.length, L.length⟩ := by
  have harray : optJSONArray (writeConnections reveal passwords L).root (lit "connections") =
      some (L.map fun c => Json.obj (exportConnection reveal passwords c)) := rfl
  have htake : (L.map fun c => Json.obj (exportConnection reveal passwords c)).take maxRecords =
      L.map fun c => Json.obj (exportConnection reveal passwords c) := List.take_of_length_le (by simpa using hlen)
  have hgone : ∀ v, Connections.all J v (Connections.delete J disk (uuids 2) (Connections.write s L')
      ((Connections.all J (uuids 1) (Connections.write s L')).map (·.id))) = [] := all_delete disk L' s (uuids 1) (uuids 2)
  intro r known
  have hadded : imported J b (uuids 4) known ((L.map fun c => Json.obj (exportConnection reveal passwords c)).zipIdx 0) [] =
      L.map (restored b reveal passwords known) := imported_exported (uuids 4) known 0 hL hids fun c _ => List.not_mem_nil
  have hr : r = (Connections.addAll J (uuids 5) (Connections.delete J disk (uuids 2) (Connections.write s L')
      ((Connections.all J (uuids 1) (Connections.write s L')).map (·.id))) (L.map (restored b reveal passwords known)),
        ⟨L.length, L.length⟩) := by
    have hknown : (Connections.all J (uuids 0) (Connections.write s L')).foldl
        (fun known c => known.put c.id c.sealedPassword) .empty = known := by rw [Connections.all_write]; rfl
    simp only [r, applyConnections, harray, Option.getD_some, htake, if_true, hgone (uuids 3), List.map_nil]
    rw [hknown, hadded, List.length_map, List.length_map]
  rw [hr]
  refine ⟨?_, rfl⟩
  have hpinned : Grouped Connection.pinned (L.map (restored b reveal passwords known)) := by
    have hsame : ∀ c : Connection, (restored b reveal passwords known c).pinned = c.pinned := by
      intro c
      rw [restored]
      split <;> rfl
    refine List.pairwise_map.2 (hgrouped.imp ?_)
    intro c d h
    rwa [hsame, hsame]
  rw [Connections.addAll]
  split
  · next hnone => rw [hnone, hgone u]
  · rw [Connections.all_write, hgone, List.nil_append, groups_eq_self hpinned]

/-- Each password is found under its id. -/
theorem get?_passwordsOf {L : List Connection} (hids : (Connections.idsOf L).Nodup) {c : Connection} (hc : c ∈ L) :
    (passwordsOf L).get? c.id = some c.sealedPassword := by
  have hfold : ∀ (L : List Connection) (known : LinkedMap Text Text),
      L.foldl (fun known c => known.put c.id c.sealedPassword) known =
        (L.map fun c => (c.id, c.sealedPassword)).foldl (fun known e => known.put e.1 e.2) known := by
    intro L
    induction L with
    | nil => exact fun _ => rfl
    | cons c L ih => exact fun known => ih (known.put c.id c.sealedPassword)
  have hentries := LinkedMap.entries_foldl (fun e : Text × Text => e.2) .empty (L.map fun c => (c.id, c.sealedPassword))
  have hnodup : ((LinkedMap.empty : LinkedMap Text Text).entries.map Prod.fst ++
      (L.map fun c => (c.id, c.sealedPassword)).map Prod.fst).Nodup := by
    rw [List.map_map]
    exact hids
  rw [foldl_put _ _ hnodup] at hentries
  rw [LinkedMap.get?_eq_some, passwordsOf, hfold, hentries]
  exact List.mem_append_right _ (List.mem_map.2 ⟨(c.id, c.sealedPassword), List.mem_map_of_mem hc, rfl⟩)

end Document

end Transfer

end Vento.App
