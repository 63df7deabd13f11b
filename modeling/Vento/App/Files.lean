import Vento.App.Json
/-!
# Files of the app

`java.io.File`'s paths, and what there is on a disk at one.

`newFile_append` says what a name put after a directory names: leading slashes are dropped, and what is left is directly
inside if it has no other (`inside_newFile`).
-/

namespace Vento.App

open Vento.Lib

def slash : UInt16 := 0x2f

/-- Runs of slashes are one. -/
def collapse : Text → Text
  | [] => []
  | c :: path => if c = slash ∧ path.head? = some slash then collapse path else c :: collapse path

/-- The same without a slash at the end. -/
def normalize (path : Text) : Text :=
  if 1 < path.length ∧ path.getLast? = some slash then (collapse path).dropLast else collapse path

def resolve (parent child : Text) : Text :=
  if child = [] ∨ child = [slash] then parent
  else if child.head? = some slash then if parent = [slash] then child else parent ++ child
  else if parent = [slash] then parent ++ child
  else parent ++ slash :: child

/-- `new File(parent, child)`. -/
def newFile (parent child : Text) : Text := resolve (if parent = [] then [slash] else parent) (normalize child)

/-- The path is `dir`, a slash, and a name of something in it. -/
def Inside (dir path : Text) : Prop :=
  ∃ name, path = dir ++ slash :: name ∧ slash ∉ name ∧ name ∉ [[], lit ".", lit ".."]

/-- Where something is, from the root. -/
abbrev Place := List Text

/-- From a directory along the names of a path, each but the last of which has to be one of a directory. -/
def walk (isDir : Place → Bool) : Place → List Text → Option Place
  | here, [] => some here
  | here, name :: names =>
    if isDir here then
      walk isDir (if name = [] ∨ name = lit "." then here else if name = lit ".." then here.dropLast else here ++ [name]) names
    else none

/-- What is at a path. One with a zero in it is of nothing. -/
def place (isDir : Place → Bool) (path : Text) : Option Place :=
  if 0 ∈ path then none else walk isDir [] (path.splitOn slash)

/-! ## Paths -/

theorem collapse_cons_slash (path : Text) (h : path.head? = some slash) : collapse (slash :: path) = collapse path := by
  rw [collapse, if_pos ⟨rfl, h⟩]

theorem collapse_of_notMem {path : Text} (h : slash ∉ path) : collapse path = path := by
  induction path with
  | nil => rfl
  | cons c path ih =>
    rw [List.mem_cons, not_or] at h
    rw [collapse, if_neg (fun hc => h.1 hc.1.symm), ih h.2]

theorem mem_collapse {path : Text} {c : UInt16} : c ∈ collapse path ↔ c ∈ path := by
  induction path with
  | nil => rfl
  | cons d path ih =>
    rw [collapse]
    split
    · next h =>
      have hmem : slash ∈ path := List.mem_of_mem_head? (by rw [h.2]; rfl)
      rw [ih, List.mem_cons]
      constructor
      · exact .inr
      · rintro (rfl | hc)
        · exact h.1 ▸ hmem
        · exact hc
    · rw [List.mem_cons, List.mem_cons, ih]

/-- What is left without the slashes that it begins with. -/
def strip (path : Text) : Text := path.dropWhile (· = slash)

theorem strip_append (path suffix : Text) (h : suffix.head? ≠ some slash) : strip (path ++ suffix) = strip path ++ suffix := by
  induction path with
  | nil =>
    cases suffix with
    | nil => rfl
    | cons c suffix =>
      have hc : c ≠ slash := by simpa using h
      simp [strip, hc]
  | cons c path ih =>
    by_cases hc : c = slash
    · simpa [strip, hc] using ih
    · simp [strip, hc]

/-- One slash is left of those that a path begins with. -/
theorem collapse_eq (path : Text) :
    collapse path = if path.head? = some slash ∧ strip path ≠ [] then slash :: collapse (strip path)
      else if path.head? = some slash then [slash] else collapse (strip path) := by
  induction path with
  | nil => rfl
  | cons c path ih =>
    by_cases hc : c = slash
    · subst hc
      have hstrip : strip (slash :: path) = strip path := by simp [strip]
      by_cases hp : path.head? = some slash
      · rw [collapse_cons_slash path hp, ih, hstrip]
        simp [hp]
      · have hself : strip path = path := by
          cases path with
          | nil => rfl
          | cons d path =>
            have hd : d ≠ slash := by simpa using hp
            simp [strip, hd]
        rw [collapse, if_neg (fun h => hp h.2), hstrip, hself]
        cases path with
        | nil => rfl
        | cons d path => simp
    · have hstrip : strip (c :: path) = c :: path := by simp [strip, hc]
      simp [hstrip, hc]

theorem head?_collapse (path : Text) : (collapse path).head? = path.head? := by
  induction path with
  | nil => rfl
  | cons c path ih =>
    rw [collapse]
    split
    · next h => rw [ih, h.2, h.1, List.head?_cons]
    · rfl

/-- What a file's name ends in. -/
structure Suffix (suffix : Text) : Prop where
  long : 2 < suffix.length
  plain : slash ∉ suffix

section Suffix

variable {dir suffix : Text} (hs : Suffix suffix) (id : Text)

include hs

theorem Suffix.ne_nil : suffix ≠ [] := by
  rintro rfl
  exact absurd hs.long (by decide)

theorem Suffix.strip_append : strip (id ++ suffix) = strip id ++ suffix := by
  apply Vento.App.strip_append
  intro h
  exact hs.plain (List.mem_of_mem_head? (by rw [h]; rfl))

theorem Suffix.normalize_append : normalize (id ++ suffix) = collapse (id ++ suffix) := by
  rw [normalize, if_neg]
  rintro ⟨-, h⟩
  rw [List.getLast?_append_of_ne_nil _ hs.ne_nil] at h
  exact hs.plain (List.mem_of_getLast? h)

theorem Suffix.collapse_ne_nil : collapse (strip id ++ suffix) ≠ [] := by
  obtain ⟨c, hc⟩ := List.exists_mem_of_ne_nil suffix hs.ne_nil
  intro h
  exact List.not_mem_nil (h ▸ mem_collapse.2 (List.mem_append_right (strip id) hc))

/-- A name put after a directory. -/
theorem newFile_append (hdir : dir ≠ []) (hroot : dir ≠ [slash]) :
    newFile dir (id ++ suffix) = dir ++ slash :: collapse (strip id ++ suffix) := by
  have hstrip := hs.strip_append id
  have hne := hs.collapse_ne_nil id
  have heq := collapse_eq (id ++ suffix)
  rw [newFile, if_neg hdir, hs.normalize_append, resolve]
  by_cases hhead : (id ++ suffix).head? = some slash
  · -- The slash that the child begins with stands between the two.
    have hfull : strip (id ++ suffix) ≠ [] := by
      rw [hstrip]
      exact List.append_ne_nil_of_right_ne_nil _ hs.ne_nil
    rw [if_pos ⟨hhead, hfull⟩, hstrip] at heq
    have hnot : ¬(collapse (id ++ suffix) = [] ∨ collapse (id ++ suffix) = [slash]) := by
      rw [heq]
      simp [hne]
    rw [if_neg hnot, if_pos (by rw [head?_collapse, hhead]), if_neg hroot, heq]
  · -- One is put there.
    rw [if_neg (fun h => hhead h.1), if_neg hhead, hstrip] at heq
    have hhead' : (collapse (id ++ suffix)).head? ≠ some slash := by
      rwa [head?_collapse]
    have hnot : ¬(collapse (id ++ suffix) = [] ∨ collapse (id ++ suffix) = [slash]) := by
      rintro (h | h)
      · exact hne (heq ▸ h)
      · rw [h] at hhead'
        exact hhead' rfl
    rw [if_neg hnot, if_neg hhead', if_neg hroot, heq]

theorem notMem_collapse : slash ∉ collapse (strip id ++ suffix) ↔ slash ∉ strip id := by
  rw [mem_collapse, List.mem_append, not_or]
  exact ⟨fun h => h.1, fun h => ⟨h, hs.plain⟩⟩

/-- It is inside exactly if it has no slash but those at the start. -/
theorem inside_newFile (hdir : dir ≠ []) (hroot : dir ≠ [slash]) : Inside dir (newFile dir (id ++ suffix)) ↔ slash ∉ strip id := by
  rw [newFile_append hs id hdir hroot, ← notMem_collapse hs]
  constructor
  · rintro ⟨name, heq, hname, -⟩
    rw [List.append_cancel_left_eq, List.cons.injEq] at heq
    rw [heq.2]
    exact hname
  · intro h
    refine ⟨_, rfl, h, ?_⟩
    -- With its suffix the name is longer than the dots.
    have hlong : 2 < (collapse (strip id ++ suffix)).length := by
      rw [collapse_of_notMem (mem_collapse.not.1 h), List.length_append]
      exact Nat.lt_of_lt_of_le hs.long (Nat.le_add_left _ _)
    have hshort : ∀ t ∈ [[], lit ".", lit ".."], t.length ≤ 2 := by decide
    intro hmem
    exact absurd (hshort _ hmem) (Nat.not_le.2 hlong)

end Suffix

/-! ## Places -/

theorem walk_append (isDir : Place → Bool) (here : Place) (names more : List Text) :
    walk isDir here (names ++ more) = (walk isDir here names).bind fun there => walk isDir there more := by
  induction names generalizing here with
  | nil => rfl
  | cons name names ih =>
    rw [List.cons_append, walk, walk]
    split
    · exact ih _
    · rfl

/-- What is inside a directory is where that is, under its own name. -/
theorem place_inside (isDir : Place → Bool) {dir name : Text} {there : Place} (hname : slash ∉ name)
    (hdots : name ∉ [[], lit ".", lit ".."]) (h : place isDir (dir ++ slash :: name) = some there) :
    ∃ home, walk isDir [] (dir.splitOn slash) = some home ∧ there = home ++ [name] := by
  rw [place] at h
  split at h
  · cases h
  · rw [List.splitOn_append_cons_self, List.splitOn_eq_singleton hname, walk_append] at h
    obtain ⟨home, hhome, h⟩ := Option.bind_eq_some_iff.1 h
    simp only [List.mem_cons, List.not_mem_nil, or_false, not_or] at hdots
    rw [walk] at h
    split at h
    · rw [if_neg (by rintro (h | h); exacts [hdots.1 h, hdots.2.1 h]), if_neg hdots.2.2, walk, Option.some.injEq] at h
      exact ⟨home, hhome, h.symm⟩
    · cases h

/-- Two paths inside a directory are of one thing only if they are the same. -/
theorem Inside.eq_of_place (isDir : Place → Bool) {dir f g : Text} {there : Place} (hf : Inside dir f) (hg : Inside dir g)
    (hpf : place isDir f = some there) (hpg : place isDir g = some there) : f = g := by
  obtain ⟨name, rfl, hname, hdots⟩ := hf
  obtain ⟨name', rfl, hname', hdots'⟩ := hg
  obtain ⟨home, hhome, rfl⟩ := place_inside isDir hname hdots hpf
  obtain ⟨home', hhome', heq⟩ := place_inside isDir hname' hdots' hpg
  cases hhome.symm.trans hhome'
  have hnames : [name] = [name'] := List.append_cancel_left heq
  rw [List.singleton_inj.1 hnames]

end Vento.App
