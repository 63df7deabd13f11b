import Vento.App.Json
/-!
# One saved connection

The record of `Connection.java`, and what is stored of it: reading back what was written gives the same record
(`fromJson_toJson`).
-/

namespace Vento.App

open Vento.Lib

structure Connection where
  id : Text
  name : Text
  backendId : Text
  address : Text
  userName : Text
  /-- As it is stored. -/
  sealedPassword : Text
  options : LinkedMap Text Text
  pinned : Bool
deriving DecidableEq

namespace Connection

def withPinned (c : Connection) (nowPinned : Bool) : Connection := { c with pinned := nowPinned }

/-- `protect` is the keystore's, which may not be there to encrypt anything. -/
def withPassword (protect : Text → Option Text) (c : Connection) (plaintext : Text) : Connection :=
  { c with sealedPassword := (protect plaintext).getD [] }

def toJson (c : Connection) : Obj :=
  let o := put (lit "id") (.str c.id) []
  let o := put (lit "name") (.str c.name) o
  let o := put (lit "backend") (.str c.backendId) o
  let o := put (lit "address") (.str c.address) o
  let o := put (lit "user") (.str c.userName) o
  let o := put (lit "password") (.str c.sealedPassword) o
  let opts := c.options.entries.foldl (fun opts e => put e.1 (.str e.2) opts) []
  let o := put (lit "options") (.obj opts) o
  if c.pinned then put (lit "pinned") (.bool true) o else o

/-- The options that `fromJson` reads. -/
def optionsOf (J : OrgJson) (o : Obj) : LinkedMap Text Text :=
  match optJSONObject o (lit "options") with
  | none => .empty
  | some j => j.foldl (fun opts e => opts.put e.1 (optString J j e.1 [])) .empty

/-- `uuid` is a new random one. -/
def fromJson (J : OrgJson) (uuid : Text) (o : Obj) : Connection where
  id := optString J o (lit "id") uuid
  name := optString J o (lit "name") []
  backendId := optString J o (lit "backend") []
  address := optString J o (lit "address") []
  userName := optString J o (lit "user") []
  sealedPassword := optString J o (lit "password") []
  options := optionsOf J o
  pinned := optBoolean o (lit "pinned")

/-! ## Reading back -/

/-- The options as they are stored. -/
def storedOptions (c : Connection) : Obj := c.options.entries.map fun e => (e.1, .str e.2)

theorem foldl_options (c : Connection) :
    c.options.entries.foldl (fun opts e => put e.1 (.str e.2) opts) [] = c.storedOptions :=
  foldl_put (fun e => Json.str e.2) c.options.entries c.options.distinct

theorem optJSONObject_toJson (c : Connection) : optJSONObject c.toJson (lit "options") = some c.storedOptions := by
  have h : optJSONObject c.toJson (lit "options") =
      some (c.options.entries.foldl (fun opts e => put e.1 (.str e.2) opts) []) := by
    obtain ⟨id, name, backendId, address, userName, sealedPassword, options, pinned⟩ := c
    cases pinned <;> rfl
  rw [h, foldl_options]

theorem optString_storedOptions (J : OrgJson) (c : Connection) {e : Text × Text} (he : e ∈ c.options.entries) :
    optString J c.storedOptions e.1 [] = e.2 := by
  have hnodup : (c.storedOptions.map Prod.fst).Nodup := by
    rw [storedOptions, List.map_map]
    exact c.options.distinct
  have hmem : (e.1, Json.str e.2) ∈ c.storedOptions := List.mem_map_of_mem he
  rw [optString, lookup_of_mem hnodup hmem]

theorem optionsOf_toJson (J : OrgJson) (c : Connection) : optionsOf J c.toJson = c.options := by
  rw [optionsOf, optJSONObject_toJson]
  dsimp only
  apply LinkedMap.ext
  have hkeys : c.storedOptions.map Prod.fst = c.options.entries.map Prod.fst := by
    rw [storedOptions, List.map_map]
    rfl
  have hnodup : ((LinkedMap.empty : LinkedMap Text Text).entries.map Prod.fst ++ c.storedOptions.map Prod.fst).Nodup := by
    rw [hkeys]
    exact c.options.distinct
  rw [LinkedMap.entries_foldl (fun e => optString J c.storedOptions e.1 []), foldl_put _ _ hnodup]
  change (c.storedOptions.map fun e => (e.1, optString J c.storedOptions e.1 [])) = c.options.entries
  rw [storedOptions, List.map_map]
  refine (List.map_congr_left ?_).trans (List.map_id _)
  intro e he
  exact Prod.ext rfl (optString_storedOptions J c he)

/-- What is read back is what was written. -/
theorem fromJson_toJson (J : OrgJson) (uuid : Text) (c : Connection) : fromJson J uuid c.toJson = c := by
  have hopts := optionsOf_toJson J c
  obtain ⟨id, name, backendId, address, userName, sealedPassword, options, pinned⟩ := c
  rw [fromJson, hopts]
  cases pinned <;> rfl

end Connection

end Vento.App
