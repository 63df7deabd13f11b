import Mathlib.Data.List.Basic
/-!
# Objects of a C program

An object is its bytes; `load` and `store` are `none` outside it. A C string is the bytes before the first NUL. What is
read and written is said of a list cut at the place: `load_append`, `store_append`.
-/

namespace Vento.Lib.CMem

abbrev Object := List UInt8

def load (o : Object) (i : Nat) : Option UInt8 := o[i]?

def store (o : Object) (i : Nat) (b : UInt8) : Option Object := if i < o.length then some (o.set i b) else none

def strlen (o : Object) : Option Nat := o.findIdx? (· = 0)

/-- The string an object starts with. -/
def cstr (o : Object) : List UInt8 := o.takeWhile (· ≠ 0)

/-- `malloc`: an object of the size asked for, with anything in it, or NULL. -/
structure Malloc where
  alloc : Nat → Option Object
  length_eq : ∀ n o, alloc n = some o → o.length = n

theorem load_append (a : List UInt8) (b : UInt8) (c : List UInt8) : load (a ++ b :: c) a.length = some b := by
  rw [load, List.getElem?_append_right (Nat.le_refl _), Nat.sub_self]
  rfl

theorem load_append_add (a c : List UInt8) (i : Nat) : load (a ++ c) (a.length + i) = load c i := by
  rw [load, List.getElem?_append_right (Nat.le_add_right _ _), Nat.add_sub_cancel_left]
  rfl

theorem store_append (a : List UInt8) (b : UInt8) (c : List UInt8) (v : UInt8) :
    store (a ++ b :: c) a.length v = some (a ++ v :: c) := by
  have hlt : a.length < (a ++ b :: c).length := by
    rw [List.length_append, List.length_cons]
    omega
  rw [store, if_pos hlt, List.set_append_right _ _ (Nat.le_refl _), Nat.sub_self]
  rfl

/-- One byte into what is left of a new object. -/
theorem store_fresh {out fresh : Object} (hroom : 0 < fresh.length) (v : UInt8) :
    store (out ++ fresh) out.length v = some (out ++ [v] ++ fresh.drop 1) := by
  cases fresh with
  | nil => exact absurd hroom (Nat.lt_irrefl 0)
  | cons f fresh => rw [store_append, List.drop_one, List.tail_cons, List.append_assoc, List.singleton_append]

theorem strlen_append {s : List UInt8} (h : 0 ∉ s) (post : Object) : strlen (s ++ 0 :: post) = some s.length := by
  unfold strlen
  induction s with
  | nil => rfl
  | cons b s ih =>
    have hb : b ≠ 0 := fun hb => h (hb ▸ List.mem_cons_self)
    rw [List.cons_append, List.findIdx?_cons, if_neg (by simpa using hb), ih fun hs => h (List.mem_cons_of_mem _ hs)]
    rfl

theorem cstr_append {s : List UInt8} (h : 0 ∉ s) (post : Object) : cstr (s ++ 0 :: post) = s := by
  have hall : ∀ b ∈ s, decide (b ≠ 0) = true := by
    intro b hb
    apply decide_eq_true
    rintro rfl
    exact h hb
  rw [cstr, List.takeWhile_append_of_pos hall, List.takeWhile_cons_of_neg (by simp), List.append_nil]

end Vento.Lib.CMem
