import Mathlib.Algebra.Ring.Int.Defs
import Mathlib.Data.List.DropRight
import Vento.Api.Options
import Vento.App.Connections
import Vento.Lib.Issue
/-!
# Importing connections

`Transfer.java`'s way in: the document that `open` accepts, and what is made of the connections in it. The settings of a
document are not of the store here, and an import of them leaves it as it is.

Of a record only the id is not checked for what it is made of: it is kept unless it is empty, too long or taken
(`imported_ids`).
-/

namespace Vento.App

open Vento.Lib
open Vento.Api (OptionType)

inductive Scope where
  | connection
  | global
  | layered
deriving DecidableEq

/-- What is used of an option. -/
structure BackendOption where
  key : Text
  type : OptionType
  /-- The values of its choices. -/
  choices : List Text
  scope : Scope
deriving DecidableEq

/-- The backends of a build and their options, the app's own, the keystore, and Java's digits. -/
structure Build where
  ids : List Text
  options : Text → List BackendOption
  appOptions : List BackendOption
  protect : Text → Option Text
  /-- `Character.digit` to base ten. -/
  digit : UInt16 → Option Nat

structure Document where
  kind : Text
  root : Obj
  count : Nat

/-- How many were applied, and of how many. -/
structure Result where
  applied : Nat
  total : Nat
deriving DecidableEq

namespace Transfer

def format : Text := lit "net.pgaskin.remotedesktop"

def version : Int := 1

def kindConnections : Text := lit "connections"

def kindSettings : Text := lit "settings"

def maxRecords : Nat := 1000

def maxField : Nat := 256

def maxSecret : Nat := 1024

def maxValue : Nat := 1024

/-! ## Opening -/

section Open

variable (J : OrgJson)

def count (o : Option Obj) : Nat := (o.map List.length).getD 0

/-- Every backend's settings in one object, under the backend and the key. A number that is not finite cannot be put. -/
def nested (backends : Obj) : Option Obj :=
  (backends.flatMap fun b => (b.2.obj?.getD []).map fun e => (b.1 ++ lit "." ++ e.1, e.2)).foldlM
    (fun flat e => if J.finite e.2 then some (put e.1 e.2 flat) else none) []

/-- Of a document that is already parsed. Nothing where it is refused. -/
def openDocument (root : Obj) : Option Document :=
  if optString J root (lit "format") [] ≠ format then none
  else
    let v := optInt J root (lit "version")
    if v ≤ 0 ∨ version < v then none
    else
      let kind := optString J root (lit "kind") []
      if kind = kindConnections then some ⟨kind, root, ((optJSONArray root (lit "connections")).map List.length).getD 0⟩
      else if kind = kindSettings then
        let backends := match optJSONObject root (lit "backends") with
          | none => some none
          | some backends => (nested J backends).map some
        backends.map fun flat =>
          ⟨kind, root, count (optJSONObject root (lit "app")) + count (optJSONObject root (lit "input")) + count flat⟩
      else none

end Open

/-! ## Validation -/

def plain (v : Text) (max : Nat) : Bool := v.length ≤ max && v.all fun c => !(c < 0x20 || c = 0x7f)

def trim (v : Text) : Text := (v.dropWhile (· ≤ 0x20)).rdropWhile (· ≤ 0x20)

/-- `Integer.parseInt`. -/
def parseInt (digit : UInt16 → Option Nat) (s : Text) : Option Int :=
  let (negative, digits) := match s with
    | c :: rest => if c = 0x2d then (true, rest) else if c = 0x2b then (false, rest) else (false, s)
    | [] => (false, [])
  if digits = [] then none
  else (digits.mapM digit).bind fun ds =>
    let n : Int := ds.foldl (fun n d => 10 * n + d) 0
    let v := if negative then -n else n
    if -2 ^ 31 ≤ v ∧ v < 2 ^ 31 then some v else none

def valid (b : Build) (o : BackendOption) (v : Text) : Bool :=
  if !plain v maxValue then false
  else
    match o.type with
    | .bool => v = lit "true" || v = lit "false"
    | .choice => o.choices.any (· = v)
    | .int => (parseInt b.digit (trim v)).isSome
    | .text => true

/-! ## Connections -/

section Import

variable (J : OrgJson) (b : Build)

/-- The options that a connection of the backend may have, by key. -/
def schema (backendId : Text) : LinkedMap Text BackendOption :=
  let schema := (b.options backendId).foldl (fun schema o => if o.scope ≠ .global then schema.put o.key o else schema) .empty
  b.appOptions.foldl (fun schema o => schema.put o.key o) schema

/-- A connection's own options, limited to those that are valid. -/
def options (j : Option Obj) (backendId : Text) : LinkedMap Text Text :=
  match j with
  | none => .empty
  | some j => j.foldl (fun out e =>
      let v := optString J j e.1 []
      match (schema b backendId).get? e.1 with
      | none => out
      | some o => if valid b o v then out.put e.1 v else out) .empty

/-- The record, or nothing if this build cannot use it. `uuid` is a new random id, `taken` the ids in use, and `known` the
passwords by id from before the import. -/
def connection (uuid : Text) (o : Obj) (taken : List Text) (known : LinkedMap Text Text) : Option Connection :=
  let backendId := optString J o (lit "backend") []
  if backendId ∉ b.ids then none
  else
    let name := optString J o (lit "name") []
    let address := optString J o (lit "address") []
    let user := optString J o (lit "user") []
    let password := optString J o (lit "password") []
    if !plain name maxField || !plain address maxField || !plain user maxField || !plain password maxSecret then none
    else if address = [] then none
    else
      let id := optString J o (lit "id") []
      let id := if id = [] ∨ maxField < id.length ∨ id ∈ taken then uuid else id
      let record : Connection := ⟨id, name, backendId, address, user, (known.get? id).getD [],
        options J b (optJSONObject o (lit "options")) backendId, optBoolean o (lit "pinned")⟩
      some (if has o (lit "password") then record.withPassword b.protect password else record)

/-- The records of an array that are used, one after another, each with the random id of its place. -/
def imported (uuids : Nat → Text) (known : LinkedMap Text Text) : List (Json × Nat) → List Text → List Connection
  | [], _ => []
  | j :: rest, taken =>
    match j.1.obj?.bind fun o => connection J b (uuids j.2) o taken known with
    | none => imported uuids known rest taken
    | some c => c :: imported uuids known rest (c.id :: taken)

variable (disk : Disk)

/-- `uuids` are the random ids of each reading, and then of the records. -/
def applyConnections (uuids : Nat → Nat → Text) (s : Store) (root : Obj) (deleteExisting : Bool) : Store × Result :=
  let a := ((optJSONArray root (lit "connections")).getD []).take maxRecords
  let known := (Connections.all J (uuids 0) s).foldl (fun known c => known.put c.id c.sealedPassword) .empty
  let s := if deleteExisting then
      Connections.delete J disk (uuids 2) s ((Connections.all J (uuids 1) s).map (·.id))
    else s
  let taken := (Connections.all J (uuids 3) s).map (·.id)
  let added := imported J b (uuids 4) known a.zipIdx taken
  (Connections.addAll J (uuids 5) s added, ⟨added.length, a.length⟩)

def apply (uuids : Nat → Nat → Text) (s : Store) (doc : Document) (replaceExisting : Bool) : Store :=
  if doc.kind = kindConnections then (applyConnections J b disk uuids s doc.root replaceExisting).1 else s

end Import

/-! ## What ids are given -/

section Ids

variable (J : OrgJson) (b : Build)

/-- This build can use the record. -/
def usable (o : Obj) : Bool :=
  optString J o (lit "backend") [] ∈ b.ids && plain (optString J o (lit "name") []) maxField &&
    plain (optString J o (lit "address") []) maxField && plain (optString J o (lit "user") []) maxField &&
    plain (optString J o (lit "password") []) maxSecret && optString J o (lit "address") [] ≠ []

/-- The id that a record has, if it may be kept. -/
def ownId (o : Obj) : Option Text :=
  let id := optString J o (lit "id") []
  if id = [] ∨ maxField < id.length then none else some id

/-- What the usable records of an array ask for as ids, and the random ids at hand. -/
def asks (uuids : Nat → Text) (a : List (Json × Nat)) : List (Option Text × Text) :=
  a.filterMap fun j => (j.1.obj?.filter (usable J b)).map fun o => (ownId J o, uuids j.2)

variable {J b}

theorem usable_iff (o : Obj) : usable J b o = true ↔
    optString J o (lit "backend") [] ∈ b.ids ∧
      (plain (optString J o (lit "name") []) maxField = true ∧ plain (optString J o (lit "address") []) maxField = true ∧
        plain (optString J o (lit "user") []) maxField = true ∧ plain (optString J o (lit "password") []) maxSecret = true) ∧
      optString J o (lit "address") [] ≠ [] := by
  simp only [usable, Bool.and_eq_true, decide_eq_true_eq, and_assoc]

theorem nameFor_ownId (taken : List Text) (o : Obj) (uuid : Text) :
    nameFor taken (ownId J o, uuid) =
      if optString J o (lit "id") [] = [] ∨ maxField < (optString J o (lit "id") []).length ∨ optString J o (lit "id") [] ∈ taken
      then uuid else optString J o (lit "id") [] := by
  rw [ownId]
  by_cases h : optString J o (lit "id") [] = [] ∨ maxField < (optString J o (lit "id") []).length
  · rw [if_pos h, if_pos (h.imp_right .inl)]
    rfl
  · rw [if_neg h, nameFor]
    dsimp only
    by_cases hin : optString J o (lit "id") [] ∈ taken
    · rw [if_pos hin, if_pos (.inr (.inr hin))]
    · rw [if_neg hin, if_neg]
      rw [← or_assoc]
      rintro (hor | hor)
      · exact h hor
      · exact hin hor

variable (uuid : Text) (o : Obj) (taken : List Text) (known : LinkedMap Text Text)

/-- A usable record is used under the id that it is given. -/
theorem connection_of_usable (h : usable J b o = true) :
    ∃ c, connection J b uuid o taken known = some c ∧ c.id = nameFor taken (ownId J o, uuid) := by
  obtain ⟨hback, ⟨hname, haddress, huser, hpassword⟩, hne⟩ := (usable_iff o).1 h
  rw [connection]
  simp only [hback, not_true_eq_false, if_false, hname, haddress, huser, hpassword, Bool.not_true, Bool.or_false,
    Bool.false_eq_true, hne]
  refine ⟨_, rfl, ?_⟩
  rw [nameFor_ownId]
  split <;> rfl

theorem connection_of_not (h : usable J b o = false) : connection J b uuid o taken known = none := by
  rw [connection]
  dsimp only
  split
  · rfl
  · next hback =>
    split
    · rfl
    · next hplain =>
      split
      · rfl
      · next hne =>
        simp only [Bool.or_eq_true, Bool.not_eq_true', not_or, Bool.not_eq_false] at hplain
        have husable : usable J b o = true :=
          (usable_iff o).2 ⟨not_not.1 hback, ⟨hplain.1.1.1, hplain.1.1.2, hplain.1.2, hplain.2⟩, hne⟩
        cases husable.symm.trans h

/-- The ids that the connections of an import are given. -/
theorem imported_ids (uuids : Nat → Text) (a : List (Json × Nat)) :
    (imported J b uuids known a taken).map (·.id) = issue (asks J b uuids a) taken := by
  induction a generalizing taken with
  | nil => rfl
  | cons j a ih =>
    rw [imported, asks, List.filterMap_cons]
    cases hj : j.1.obj? with
    | none => exact ih taken
    | some o =>
      by_cases h : usable J b o = true
      · -- Its id is taken from here on.
        obtain ⟨c, hc, hid⟩ := connection_of_usable (uuids j.2) o taken known h
        simp only [Option.bind_some, hc, Option.filter_some, h, if_true, Option.map_some]
        rw [List.map_cons, issue, ih (c.id :: taken), hid]
        rfl
      · have hnone := connection_of_not (uuids j.2) o taken known (Bool.eq_false_iff.2 h)
        simp only [Option.bind_some, hnone, Option.filter_some, h]
        exact ih taken

end Ids

end Transfer

end Vento.App
