import Vento.Lib.LinkedMap
import Vento.Lib.Utf16
/-!
# Objects of `org.json`

What the app reads of them and puts in them. An object keeps its names in the order they were put in, and a string is its
UTF-16 units.

What a value is converted to where another type is asked for is the library's (`OrgJson`).
-/

namespace Vento.App

open Vento.Lib

abbrev Text := List UInt16

instance : LawfulBEq Text := inferInstance

def lit (s : String) : Text := Utf16.encode s.toList

inductive Json where
  | null
  | bool (b : Bool)
  /-- As it is written in the document. -/
  | num (literal : Text)
  | str (s : Text)
  | arr (values : List Json)
  | obj (entries : List (Text × Json))

abbrev Obj := List (Text × Json)

structure OrgJson where
  /-- `String.valueOf` of a value that is not a string. -/
  text : Json → Text
  /-- A number's `intValue`, or a string's as a number. -/
  integer : Json → Option Int
  /-- Not a number that cannot be put in an object. -/
  finite : Json → Bool

def lower (c : UInt16) : UInt16 := if 0x41 ≤ c ∧ c ≤ 0x5a then c + 0x20 else c

section Opt

variable (J : OrgJson) (o : Obj) (key : Text)

def optString (fallback : Text) : Text :=
  match o.lookup key with
  | none => fallback
  | some (.str s) => s
  | some v => J.text v

/-- `optBoolean` with `false` for what is neither. -/
def optBoolean : Bool :=
  match o.lookup key with
  | some (.bool b) => b
  | some (.str s) => s.map lower = lit "true"
  | _ => false

def optInt : Int := ((o.lookup key).bind J.integer).getD 0

def optJSONObject : Option Obj :=
  match o.lookup key with
  | some (.obj entries) => some entries
  | _ => none

def optJSONArray : Option (List Json) :=
  match o.lookup key with
  | some (.arr values) => some values
  | _ => none

def has : Bool := (o.lookup key).isSome

end Opt

def Json.obj? : Json → Option Obj
  | .obj entries => some entries
  | _ => none

@[simp]
theorem Json.obj?_obj (entries : Obj) : (Json.obj entries).obj? = some entries := rfl

end Vento.App
