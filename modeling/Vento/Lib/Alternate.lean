import Vento.Lib.Runs
/-!
# Opening and closing in turn

A call may open something, close it or leave it alone. `alternate` listens to the
calls one at a time and refuses one that opens what is open or closes what is
closed, so a list of calls that it takes to the end alternates strictly, and the
state it ends in says whether the thing is open. Strict alternation of a whole
list gives that of each part of it from the start, by `run_prefix`.
-/

namespace Vento.Lib

variable {ε : Type}

def alternate (opens closes : ε → Bool) (isOpen : Bool) (e : ε) : Option Bool :=
  if opens e then if isOpen then none else some true
  else if closes e then if isOpen then some false else none
  else some isOpen

section

variable {opens closes : ε → Bool} {b : Bool} {e : ε}

theorem alternate_other (ho : opens e = false) (h : closes e = false) : alternate opens closes b e = some b := by
  simp [alternate, ho, h]

end

/-- Calls of which none opens or closes leave it as it is. -/
theorem run_alternate_other {opens closes : ε → Bool} {b : Bool} {es : List ε}
    (h : ∀ e ∈ es, opens e = false ∧ closes e = false) : run (alternate opens closes) b es = some b := by
  induction es with
  | nil => rfl
  | cons e es ih =>
    have he := h e List.mem_cons_self
    rw [run_cons, alternate_other he.1 he.2]
    exact ih fun e' h' => h e' (List.mem_cons_of_mem e h')

end Vento.Lib
