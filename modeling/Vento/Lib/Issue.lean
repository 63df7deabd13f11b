import Mathlib.Data.List.Nodup
/-!
# Names kept or issued

Each of some records asks for a name, or for none, and has a new one at hand: it gets the name that it asked for unless that
is taken, and the new one otherwise.

What two names must not have in common may be less than the whole of them (`f`). `nodup_issue_iff` says when no two names
have it in common.
-/

namespace Vento.Lib

variable {ι κ : Type} [DecidableEq ι] (f : ι → κ)

/-- What a record gets that asks for `r.1` and has `r.2` at hand. -/
def nameFor (taken : List ι) (r : Option ι × ι) : ι :=
  match r.1 with
  | none => r.2
  | some name => if name ∈ taken then r.2 else name

/-- The names given, one after another, where each is taken from then on. -/
def issue : List (Option ι × ι) → List ι → List ι
  | [], _ => []
  | r :: rs, taken => nameFor taken r :: issue rs (nameFor taken r :: taken)

/-- The names asked for. -/
def asked (rs : List (Option ι × ι)) : List ι := rs.filterMap Prod.fst

/-- The names at hand are no two the same, and none the same as one taken or asked for. -/
structure New (rs : List (Option ι × ι)) (taken : List ι) : Prop where
  distinct : (rs.map fun r => f r.2).Nodup
  apart : ∀ r ∈ rs, ∀ name ∈ taken ++ asked rs, f r.2 ≠ f name

variable {f} {rs : List (Option ι × ι)} {taken : List ι}

theorem nameFor_cases (taken : List ι) (r : Option ι × ι) :
    (nameFor taken r = r.2 ∧ ∀ name, r.1 = some name → name ∈ taken) ∨ (r.1 = some (nameFor taken r) ∧ nameFor taken r ∉ taken) := by
  obtain ⟨a, u⟩ := r
  cases a with
  | none => exact .inl ⟨rfl, nofun⟩
  | some a =>
    by_cases ha : a ∈ taken
    · refine .inl ⟨if_pos ha, ?_⟩
      rintro name h
      exact Option.some.inj h ▸ ha
    · have hgiven : nameFor taken (some a, u) = a := if_neg ha
      rw [hgiven]
      exact .inr ⟨rfl, ha⟩

omit [DecidableEq ι] in
theorem mem_asked {name : ι} : name ∈ asked rs ↔ ∃ r ∈ rs, r.1 = some name := List.mem_filterMap

/-- A name that is given was asked for or at hand. -/
theorem mem_issue {name : ι} (h : name ∈ issue rs taken) : name ∈ asked rs ∨ ∃ r ∈ rs, name = r.2 := by
  induction rs generalizing taken with
  | nil => cases h
  | cons r rs ih =>
    rcases List.mem_cons.1 h with rfl | h
    · rcases nameFor_cases taken r with ⟨hr, -⟩ | ⟨hr, -⟩
      · exact .inr ⟨r, List.mem_cons_self, hr⟩
      · exact .inl (mem_asked.2 ⟨r, List.mem_cons_self, hr⟩)
    · rcases ih h with h | ⟨r', hr', h⟩
      · obtain ⟨r', hr', h⟩ := mem_asked.1 h
        exact .inl (mem_asked.2 ⟨r', List.mem_cons_of_mem r hr', h⟩)
      · exact .inr ⟨r', List.mem_cons_of_mem r hr', h⟩

/-- What is asked for is taken in the end. -/
theorem mem_of_asked {name : ι} (h : name ∈ asked rs) : name ∈ taken ++ issue rs taken := by
  induction rs generalizing taken with
  | nil => cases h
  | cons r rs ih =>
    obtain ⟨r', hr', ha⟩ := mem_asked.1 h
    rcases List.mem_cons.1 hr' with rfl | hr'
    · rcases nameFor_cases taken r' with ⟨-, hin⟩ | ⟨hr, -⟩
      · exact List.mem_append_left _ (hin name ha)
      · cases ha.symm.trans hr
        exact List.mem_append_right _ List.mem_cons_self
    · have hmem : name ∈ (nameFor taken r :: taken) ++ issue rs (nameFor taken r :: taken) := ih (mem_asked.2 ⟨r', hr', ha⟩)
      exact List.perm_middle.mem_iff.2 hmem

omit [DecidableEq ι] in
theorem New.mono {taken' : List ι} (h : New f rs taken) (hsub : ∀ name ∈ taken', name ∈ taken) : New f rs taken' where
  distinct := h.distinct
  apart r hr name hname := by
    apply h.apart r hr
    rcases List.mem_append.1 hname with hname | hname
    · exact List.mem_append_left _ (hsub name hname)
    · exact List.mem_append_right _ hname

theorem New.tail {r : Option ι × ι} (h : New f (r :: rs) taken) : New f rs (nameFor taken r :: taken) where
  distinct := (List.nodup_cons.1 h.distinct).2
  apart r' hr' name hname := by
    have hne := h.apart r' (List.mem_cons_of_mem r hr')
    have hasked : ∀ r'' ∈ r :: rs, r''.1 = some name → f r'.2 ≠ f name := fun r'' hr'' heq =>
      hne name (List.mem_append_right _ (mem_asked.2 ⟨r'', hr'', heq⟩))
    rcases List.mem_append.1 hname with hname | hname
    · rcases List.mem_cons.1 hname with rfl | hname
      · rcases nameFor_cases taken r with ⟨hr, -⟩ | ⟨hr, -⟩
        · rw [hr]
          intro heq
          exact (List.nodup_cons.1 h.distinct).1 (List.mem_map.2 ⟨r', hr', heq⟩)
        · exact hasked r List.mem_cons_self hr
      · exact hne name (List.mem_append_left _ hname)
    · obtain ⟨r'', hr'', heq⟩ := mem_asked.1 hname
      exact hasked r'' (List.mem_cons_of_mem r hr'') heq

/-- No two of the names asked for have `f` in common, nor one of them and a name taken. -/
def Differ (f : ι → κ) (rs : List (Option ι × ι)) (taken : List ι) : Prop :=
  ∀ a ∈ asked rs, ∀ b ∈ taken ++ asked rs, f a = f b → a = b

theorem Differ.tail {r : Option ι × ι} (hnew : New f (r :: rs) taken) (h : Differ f (r :: rs) taken) :
    Differ f rs (nameFor taken r :: taken) := by
  intro a ha b hb heq
  obtain ⟨r', hr', hra⟩ := mem_asked.1 ha
  have hasked : ∀ r'' ∈ r :: rs, ∀ c, r''.1 = some c → c ∈ asked (r :: rs) := fun r'' hr'' c hc => mem_asked.2 ⟨r'', hr'', hc⟩
  have ha := hasked r' (List.mem_cons_of_mem r hr') a hra
  rcases List.mem_append.1 hb with hb | hb
  · rcases List.mem_cons.1 hb with rfl | hb
    · rcases nameFor_cases taken r with ⟨hr, -⟩ | ⟨hr, -⟩
      · rw [hr] at heq
        exact absurd heq.symm (hnew.apart r List.mem_cons_self a (List.mem_append_right _ ha))
      · exact h a ha _ (List.mem_append_right _ (hasked r List.mem_cons_self _ hr)) heq
    · exact h a ha b (List.mem_append_left _ hb) heq
  · obtain ⟨r'', hr'', hrb⟩ := mem_asked.1 hb
    exact h a ha b (List.mem_append_right _ (hasked r'' (List.mem_cons_of_mem r hr'') b hrb)) heq

/-- A name that is given has `f` in common with none taken. -/
theorem nameFor_notMem {r : Option ι × ι} (hnew : New f (r :: rs) taken) (h : Differ f (r :: rs) taken) :
    f (nameFor taken r) ∉ taken.map f := by
  intro hmem
  obtain ⟨b, hb, heq⟩ := List.mem_map.1 hmem
  rcases nameFor_cases taken r with ⟨hr, -⟩ | ⟨hr, hnot⟩
  · rw [hr] at heq
    exact hnew.apart r List.mem_cons_self b (List.mem_append_left _ hb) heq.symm
  · have hasked : nameFor taken r ∈ asked (r :: rs) := mem_asked.2 ⟨r, List.mem_cons_self, hr⟩
    exact hnot (h _ hasked b (List.mem_append_left _ hb) heq.symm ▸ hb)

theorem nodup_issue (hnew : New f rs taken) (hdiff : Differ f rs taken) (htaken : (taken.map f).Nodup) :
    ((taken ++ issue rs taken).map f).Nodup := by
  induction rs generalizing taken with
  | nil => simpa [issue] using htaken
  | cons r rs ih =>
    have hcons : ((nameFor taken r :: taken).map f).Nodup := List.nodup_cons.2 ⟨nameFor_notMem hnew hdiff, htaken⟩
    -- The name that was given is at the front of those taken, and stands between them and the rest here.
    have hrest := ih hnew.tail (hdiff.tail hnew) hcons
    exact (List.perm_middle.map f).nodup_iff.2 hrest

/-- No two names taken in the end have `f` in common exactly if none of those asked for do, with another or with one that
was taken. -/
theorem nodup_issue_iff (hnew : New f rs taken) (htaken : (taken.map f).Nodup) :
    ((taken ++ issue rs taken).map f).Nodup ↔ Differ f rs taken := by
  constructor
  · intro h a ha b hb heq
    have hb : b ∈ taken ++ issue rs taken := by
      rcases List.mem_append.1 hb with hb | hb
      · exact List.mem_append_left _ hb
      · exact mem_of_asked hb
    exact List.inj_on_of_nodup_map h (mem_of_asked ha) hb heq
  · exact fun h => nodup_issue hnew h htaken

end Vento.Lib
