import Vento.Lib.Str
/-!
# Credentials

`api/src/credentials.rs`: how a name is split into a domain and a user, what a credentials prompt offers, and what an
answer to it signs in as.

`prompt_kept_iff` says for which names a prompt that is answered as it was offered signs in as the record does.
-/

namespace Vento.Api

open Vento.Lib Vento.Lib.Str

/-- An ASCII control or a space. -/
def blank (c : Char) : Bool := c ≤ ' '

def microsoftAccount : Str := "MicrosoftAccount".toList

def emailDomains : List Str :=
  ["msn.com", "passport.com", "windowslive.com", "gmail.com", "googlemail.com", "ymail.com", "aol.com", "icloud.com", "me.com",
    "mac.com", "proton.me", "protonmail.com", "pm.me"].map String.toList

def emailProviders : List Str := ["outlook", "hotmail", "live", "yahoo", "gmx"].map String.toList

def isCountrySuffix (suffix : Str) : Bool :=
  let country := fun s : Str => (bytes s).length == 2 && (bytes s).all fun b => 0x61 ≤ b && b ≤ 0x7a
  match splitOnce ['.'] suffix with
  | none => suffix == "com".toList || suffix == "net".toList || country suffix
  | some (second, code) => (second == "co".toList || second == "com".toList) && country code

/-- Whether an address at `domain` is taken to be a Microsoft account. -/
def isEmailDomain (domain : Str) : Bool :=
  let domain := domain.map Char.toLower
  if emailDomains.contains domain then true
  else (splitOnce ['.'] domain).any fun p => emailProviders.contains p.1 && isCountrySuffix p.2

/-- `DOMAIN\user`, `user@domain` or a bare name, as the domain and the user. -/
def splitDomain (value : Str) : Str × Str :=
  let name := trimMatches blank value
  match splitOnce ['\\'] name with
  | some (domain, user) => (domain, user)
  | none =>
    match splitOnce ['@'] name with
    | some (user, domain) =>
      if user = [] then ([], name) else if isEmailDomain domain then (microsoftAccount, name) else (domain, user)
    | none => ([], name)

structure Credentials where
  user : Str
  domain : Str
  password : Str
deriving DecidableEq, Repr

/-- What is used of a backend's entry in the catalog. -/
structure Catalog.About where
  userHasDomain : Bool

/-- A prompt's answer as the domain and the user to send, given the session's own. -/
def rdpIdentity (answer : Credentials) (domain user : Str) : Str × Str :=
  let typed := trimMatches blank answer.user
  if typed = [] then (domain, user)
  else
    let (named, name) := splitDomain typed
    if named ≠ [] then (named, name)
    else if answer.domain ≠ [] then (answer.domain, name)
    else (domain, name)

/-- The user name that a prompt starts with. -/
def promptUser (about : Catalog.About) (user : Str) : Str :=
  if about.userHasDomain then
    match splitDomain user with
    | (domain, user) => if domain = [] then user else domain ++ '\\' :: user
  else user

/-- What makes a name split the same way again, once it is put together: where it begins with a backslash, nothing in the
rest splits it; and nothing is trimmed beside the `@` of an address that is not a Microsoft account's. -/
structure Rejoins (name : Str) : Prop where
  noDomain : ∀ user, name = '\\' :: user →
    (∀ c ∈ user.head?, blank c = false) ∧ '\\' ∉ user ∧ ('@' ∈ user → user.head? = some '@')
  address : ∀ user domain, name = user ++ '@' :: domain → '\\' ∉ name → '@' ∉ user → user ≠ [] → isEmailDomain domain = false →
    (∀ c ∈ user.getLast?, blank c = false) ∧ ∀ c ∈ domain.head?, blank c = false

/-! ## What is split -/

theorem blank_backslash : blank '\\' = false := by decide

/-- A name that nothing is trimmed from. -/
abbrev Trimmed (name : Str) : Prop := Bare blank name

theorem splitDomain_trimMatches (value : Str) : splitDomain (trimMatches blank value) = splitDomain value := by
  unfold splitDomain
  rw [(bare_trimMatches blank value).trimMatches_eq_self]

section Split

variable {name domain user : Str} (h : Trimmed name)

include h

theorem splitDomain_backslash (heq : name = domain ++ '\\' :: user) (hnot : '\\' ∉ domain) : splitDomain name = (domain, user) := by
  unfold splitDomain
  dsimp only
  rw [h.trimMatches_eq_self, splitOnce_singleton.2 ⟨heq, hnot⟩]

theorem splitDomain_at (hback : '\\' ∉ name) (heq : name = user ++ '@' :: domain) (hnot : '@' ∉ user) (hne : user ≠ []) :
    splitDomain name = if isEmailDomain domain then (microsoftAccount, name) else (domain, user) := by
  unfold splitDomain
  dsimp only
  rw [h.trimMatches_eq_self, splitOnce_eq_none.2 hback, splitOnce_singleton.2 ⟨heq, hnot⟩]
  exact if_neg hne

theorem splitDomain_bare (hback : '\\' ∉ name) (hat : '@' ∈ name → name.head? = some '@') : splitDomain name = ([], name) := by
  unfold splitDomain
  dsimp only
  rw [h.trimMatches_eq_self, splitOnce_eq_none.2 hback]
  cases hsplit : splitOnce ['@'] name with
  | none => rfl
  | some p =>
    obtain ⟨user, domain⟩ := p
    obtain ⟨heq, hnot⟩ := splitOnce_singleton.1 hsplit
    have hnil : user = [] := by
      cases user with
      | nil => rfl
      | cons c user =>
        have hhead := hat (by rw [heq]; simp)
        rw [heq] at hhead
        exact absurd (by rw [Option.some.inj hhead]; exact List.mem_cons_self) hnot
    exact if_pos hnil

end Split

/-- The forms of a name. -/
theorem name_cases (name : Str) :
    (∃ domain user, name = domain ++ '\\' :: user ∧ '\\' ∉ domain) ∨
    ('\\' ∉ name ∧ ∃ user domain, name = user ++ '@' :: domain ∧ '@' ∉ user ∧ user ≠ []) ∨
    ('\\' ∉ name ∧ ('@' ∈ name → name.head? = some '@')) := by
  cases hback : splitOnce ['\\'] name with
  | some p => exact .inl ⟨p.1, p.2, splitOnce_singleton.1 hback⟩
  | none =>
    have hback := splitOnce_eq_none.1 hback
    cases hat : splitOnce ['@'] name with
    | none => exact .inr (.inr ⟨hback, fun hmem => absurd hmem (splitOnce_eq_none.1 hat)⟩)
    | some p =>
      obtain ⟨heq, hnot⟩ := splitOnce_singleton.1 hat
      by_cases hne : p.1 = []
      · refine .inr (.inr ⟨hback, fun _ => ?_⟩)
        rw [heq, hne]
        rfl
      · exact .inr (.inl ⟨hback, p.1, p.2, heq, hnot, hne⟩)

/-! ## What is answered -/

/-- An answer that names a domain is split as a name is. -/
theorem rdpIdentity_named {answer : Credentials} {domain user : Str} (h : (splitDomain answer.user).1 ≠ []) :
    rdpIdentity answer domain user = splitDomain answer.user := by
  have hne : trimMatches blank answer.user ≠ [] := by
    intro hnil
    rw [← splitDomain_trimMatches, hnil] at h
    exact h rfl
  unfold rdpIdentity
  dsimp only
  rw [if_neg hne, splitDomain_trimMatches, if_pos h]

/-- So is one for a session without a domain, unless nothing is typed. -/
theorem rdpIdentity_noDomain (user typed password : Str) :
    rdpIdentity ⟨typed, [], password⟩ [] user = if trimMatches blank typed = [] then ([], user) else splitDomain typed := by
  unfold rdpIdentity
  dsimp only
  rw [splitDomain_trimMatches]
  refine if_congr Iff.rfl rfl ?_
  by_cases h : (splitDomain typed).1 = []
  · rw [if_neg (not_not.2 h), if_neg (not_not.2 rfl), ← h]
  · rw [if_pos h]

/-- A name without a domain is no longer than what it is split from. -/
theorem length_le_of_noDomain {value : Str} (h : (splitDomain value).1 = []) :
    (splitDomain value).2.length ≤ (trimMatches blank value).length := by
  rw [← splitDomain_trimMatches] at h ⊢
  have hbare := bare_trimMatches blank value
  generalize trimMatches blank value = name at h hbare ⊢
  rcases name_cases name with ⟨domain, user, heq, hnot⟩ | ⟨hback, user, domain, heq, hnot, hne⟩ | ⟨hback, hat⟩
  · rw [splitDomain_backslash hbare heq hnot, heq, List.length_append, List.length_cons]
    show user.length ≤ _
    omega
  · rw [splitDomain_at hbare hback heq hnot hne] at h ⊢
    split at h
    · cases h
    · rw [if_neg ‹_›, heq, List.length_append]
      exact Nat.le_add_right _ _
  · rw [splitDomain_bare hbare hback hat]

/-! ## A prompt that is answered as it was offered -/

/-- A user without a domain, where he is what the prompt offers. -/
theorem kept_noDomain_iff {user : Str} (hblank : trimMatches blank user = [] → user = []) (password : Str) :
    rdpIdentity ⟨user, [], password⟩ [] user = ([], user) ↔
      Trimmed user ∧ '\\' ∉ user ∧ ('@' ∈ user → user.head? = some '@') := by
  rw [rdpIdentity_noDomain]
  by_cases hnil : trimMatches blank user = []
  · rw [hblank hnil]
    exact iff_of_true (if_pos rfl) ⟨⟨nofun, nofun⟩, List.not_mem_nil, nofun⟩
  rw [if_neg hnil]
  constructor
  · intro hsplit
    have hle := length_le_of_noDomain (show (splitDomain user).1 = [] by rw [hsplit])
    rw [hsplit] at hle
    have htrim : Trimmed user := by
      rw [← (trimMatches_sublist blank user).eq_of_length_le hle]
      exact bare_trimMatches blank user
    refine ⟨htrim, ?_⟩
    rcases name_cases user with ⟨domain', user', heq, hnot⟩ | ⟨hback, user', domain', heq, hnot, hne⟩ | hbare
    · rw [splitDomain_backslash htrim heq hnot] at hsplit
      have hlen := congrArg List.length heq
      rw [(Prod.mk.inj hsplit).2, List.length_append, List.length_cons] at hlen
      omega
    · rw [splitDomain_at htrim hback heq hnot hne] at hsplit
      split at hsplit
      · cases hsplit
      · have hlen := congrArg List.length heq
        rw [(Prod.mk.inj hsplit).2, List.length_append, List.length_cons] at hlen
        omega
    · exact hbare
  · rintro ⟨htrim, hback, hat⟩
    exact splitDomain_bare htrim hback hat

theorem dropWhile_eq_self_iff {p : Char → Bool} {s : Str} : s.dropWhile p = s ↔ ∀ c ∈ s.head?, p c = false := by
  cases s with
  | nil => exact iff_of_true rfl nofun
  | cons c s =>
    rw [List.dropWhile_cons]
    constructor
    · intro h c' hc'
      cases hc'
      by_contra hp
      rw [if_pos (by simpa using hp)] at h
      have hle := (List.dropWhile_sublist p (l := s)).length_le
      rw [h, List.length_cons] at hle
      omega
    · intro h
      rw [h c rfl]
      rfl

theorem rdropWhile_eq_self_iff {p : Char → Bool} {s : Str} : s.rdropWhile p = s ↔ ∀ c ∈ s.getLast?, p c = false := by
  rw [List.rdropWhile, List.reverse_eq_iff, dropWhile_eq_self_iff, List.head?_reverse]

/-- A user with a domain, where the prompt offers the two with a backslash between them. -/
theorem kept_domain_iff {domain user : Str} (hnot : '\\' ∉ domain) (hblank : domain.dropWhile blank ≠ []) (password : Str) :
    rdpIdentity ⟨domain ++ '\\' :: user, [], password⟩ domain user = (domain, user) ↔
      (∀ c ∈ domain.head?, blank c = false) ∧ ∀ c ∈ user.getLast?, blank c = false := by
  have hback : Bare blank ['\\'] := ⟨by simp [blank_backslash], by simp [blank_backslash]⟩
  have htrim : trimMatches blank (domain ++ '\\' :: user) = domain.dropWhile blank ++ '\\' :: user.rdropWhile blank :=
    trimMatches_around hback (List.cons_ne_nil _ _) domain user
  have hsplit : splitDomain (domain ++ '\\' :: user) = (domain.dropWhile blank, user.rdropWhile blank) := by
    rw [← splitDomain_trimMatches]
    exact splitDomain_backslash (bare_trimMatches _ _) htrim fun h => hnot ((List.dropWhile_sublist _).subset h)
  rw [rdpIdentity_named (by rw [hsplit]; exact hblank), hsplit, Prod.mk.injEq, dropWhile_eq_self_iff, rdropWhile_eq_self_iff]

section Rejoins

variable {name domain user : Str}

theorem rejoins_backslash_iff (heq : name = domain ++ '\\' :: user) (hnot : '\\' ∉ domain) :
    Rejoins name ↔
      (domain = [] → (∀ c ∈ user.head?, blank c = false) ∧ '\\' ∉ user ∧ ('@' ∈ user → user.head? = some '@')) := by
  constructor
  · rintro h rfl
    exact h.noDomain user heq
  · intro h
    refine ⟨fun user' heq' => ?_, fun _ _ _ hback => absurd (by rw [heq]; simp) hback⟩
    cases domain with
    | nil =>
      obtain ⟨-, rfl⟩ := List.cons.inj (heq.symm.trans heq')
      exact h rfl
    | cons c domain =>
      obtain ⟨rfl, -⟩ := List.cons.inj (heq.symm.trans heq')
      exact absurd List.mem_cons_self hnot

theorem rejoins_at_iff (hback : '\\' ∉ name) (heq : name = user ++ '@' :: domain) (hnot : '@' ∉ user) (hne : user ≠ []) :
    Rejoins name ↔
      (isEmailDomain domain = false → (∀ c ∈ user.getLast?, blank c = false) ∧ ∀ c ∈ domain.head?, blank c = false) := by
  constructor
  · intro h
    exact h.address user domain heq hback hnot hne
  · intro h
    refine ⟨fun user' heq' => absurd (by rw [heq']; exact List.mem_cons_self) hback, fun user' domain' heq' _ hnot' _ => ?_⟩
    have hsplit := (splitOnce_singleton.2 ⟨heq, hnot⟩).symm.trans (splitOnce_singleton.2 ⟨heq', hnot'⟩)
    obtain ⟨rfl, rfl⟩ := Prod.mk.inj (Option.some.inj hsplit)
    exact h

theorem rejoins_bare (hback : '\\' ∉ name) (hat : '@' ∈ name → name.head? = some '@') : Rejoins name := by
  refine ⟨fun user' heq' => absurd (by rw [heq']; exact List.mem_cons_self) hback, fun user domain heq _ hnot hne => ?_⟩
  have hhead := hat (by rw [heq]; simp)
  rw [heq, List.head?_append_of_ne_nil _ hne] at hhead
  exact absurd (List.mem_of_mem_head? hhead) hnot

end Rejoins

theorem blank_of_trimMatches_eq_nil {s : Str} (h : trimMatches blank s = []) : ∀ c ∈ s, blank c = true := by
  obtain ⟨w, w', hs, hw, hw'⟩ := exists_trimMatches blank s
  intro c hc
  rw [hs, h, List.nil_append, List.mem_append] at hc
  exact hc.elim (hw c) (hw' c)

section Kept

variable {about : Catalog.About} (h : about.userHasDomain = true) {name domain user : Str} (htrim : Trimmed name) (password : Str)

include h in
theorem promptUser_eq (u : Str) :
    promptUser about u = if (splitDomain u).1 = [] then (splitDomain u).2 else (splitDomain u).1 ++ '\\' :: (splitDomain u).2 := by
  rw [promptUser, if_pos h]

theorem trimmed_microsoftAccount : Trimmed microsoftAccount := by
  have hhead : microsoftAccount.head? = some 'M' := by decide +kernel
  have hlast : microsoftAccount.getLast? = some 't' := by decide +kernel
  constructor
  · rw [hhead]
    simp [blank]
  · rw [hlast]
    simp [blank]

include htrim

theorem kept_email :
    rdpIdentity ⟨microsoftAccount ++ '\\' :: name, [], password⟩ microsoftAccount name = (microsoftAccount, name) :=
  (kept_domain_iff (by decide +kernel) (by decide +kernel) password).2 ⟨trimmed_microsoftAccount.head, htrim.last⟩

include h

theorem kept_backslash_iff (heq : name = domain ++ '\\' :: user) (hnot : '\\' ∉ domain) :
    rdpIdentity ⟨promptUser about name, [], password⟩ domain user = (domain, user) ↔ Rejoins name := by
  have hlast : ∀ c ∈ user.getLast?, blank c = false := by
    intro c hc
    apply htrim.last
    rw [heq, List.getLast?_append, List.getLast?_cons, Option.mem_def.1 hc]
    rfl
  rw [promptUser_eq h, splitDomain_backslash htrim heq hnot, rejoins_backslash_iff heq hnot]
  dsimp only
  by_cases hdomain : domain = []
  · -- The user alone is offered, and split for itself.
    have hblank : trimMatches blank user = [] → user = [] := by
      intro hnil
      by_contra hne
      have hmem := blank_of_trimMatches_eq_nil hnil _ (List.getLast_mem hne)
      rw [hlast _ (List.getLast?_eq_some_getLast hne)] at hmem
      cases hmem
    rw [if_pos hdomain, hdomain, kept_noDomain_iff hblank]
    exact ⟨fun h _ => ⟨h.1.head, h.2⟩, fun h => ⟨⟨(h rfl).1, hlast⟩, (h rfl).2⟩⟩
  · have hhead : ∀ c ∈ domain.head?, blank c = false := by
      intro c hc
      apply htrim.head
      rw [heq, List.head?_append_of_ne_nil _ hdomain]
      exact hc
    have hkept : domain.dropWhile blank ≠ [] := by rwa [dropWhile_eq_self_iff.2 hhead]
    rw [if_neg hdomain, kept_domain_iff hnot hkept]
    exact iff_of_true ⟨hhead, hlast⟩ fun hnil => absurd hnil hdomain

theorem kept_at_iff (hback : '\\' ∉ name) (heq : name = user ++ '@' :: domain) (hnot : '@' ∉ user) (hne : user ≠ []) :
    rdpIdentity ⟨promptUser about name, [], password⟩ (splitDomain name).1 (splitDomain name).2 = splitDomain name ↔ Rejoins name := by
  have hhead : ∀ c ∈ user.head?, blank c = false := by
    intro c hc
    apply htrim.head
    rw [heq, List.head?_append_of_ne_nil _ hne]
    exact hc
  have hsub : '\\' ∉ domain ∧ '\\' ∉ user := by
    rw [heq, List.mem_append, List.mem_cons] at hback
    tauto
  rw [promptUser_eq h, splitDomain_at htrim hback heq hnot hne, rejoins_at_iff hback heq hnot hne]
  by_cases hemail : isEmailDomain domain = true
  · rw [if_pos hemail]
    exact iff_of_true (kept_email htrim password) fun hfalse => absurd hemail (by simp [hfalse])
  rw [if_neg hemail]
  dsimp only
  have hemail : isEmailDomain domain = false := by simpa using hemail
  by_cases hdomain : domain = []
  · -- The name ends in its `@`, which is not offered.
    have hblank : trimMatches blank user = [] → user = [] := by
      intro hnil
      by_contra hne
      have hmem := blank_of_trimMatches_eq_nil hnil _ (List.head_mem hne)
      rw [hhead _ (List.head?_eq_some_head hne)] at hmem
      cases hmem
    rw [if_pos hdomain, hdomain, kept_noDomain_iff hblank]
    constructor
    · intro h _
      exact ⟨h.1.last, nofun⟩
    · intro h
      exact ⟨⟨hhead, (h (hdomain ▸ hemail)).1⟩, hsub.2, fun hat => absurd hat hnot⟩
  · have hkept : domain.dropWhile blank ≠ [] := by
      intro hnil
      have hmem := List.dropWhile_eq_nil_iff.1 hnil _ (List.getLast_mem hdomain)
      have hlast : name.getLast? = some (domain.getLast hdomain) := by
        rw [heq, List.getLast?_append, List.getLast?_cons, List.getLast?_eq_some_getLast hdomain]
        rfl
      rw [htrim.last _ hlast] at hmem
      cases hmem
    rw [if_neg hdomain, kept_domain_iff hsub.1 hkept]
    exact ⟨fun h _ => ⟨h.2, h.1⟩, fun h => ⟨(h hemail).2, (h hemail).1⟩⟩

end Kept

/-- A prompt that is answered as it was offered signs in as the record does, exactly if the record's name splits the same way
again once it is put together. -/
theorem prompt_kept_iff {about : Catalog.About} (h : about.userHasDomain = true) (u password : Str) :
    rdpIdentity ⟨promptUser about u, [], password⟩ (splitDomain u).1 (splitDomain u).2 = splitDomain u ↔
      Rejoins (trimMatches blank u) := by
  have htrim : Trimmed (trimMatches blank u) := bare_trimMatches blank u
  rw [promptUser_eq h, ← splitDomain_trimMatches u, ← promptUser_eq h]
  generalize trimMatches blank u = name at htrim ⊢
  rcases name_cases name with ⟨domain, user, heq, hnot⟩ | ⟨hback, user, domain, heq, hnot, hne⟩ | ⟨hback, hat⟩
  · rw [splitDomain_backslash htrim heq hnot]
    exact kept_backslash_iff h htrim password heq hnot
  · exact kept_at_iff h htrim password hback heq hnot hne
  · rw [promptUser_eq h, splitDomain_bare htrim hback hat, if_pos rfl,
      kept_noDomain_iff fun hnil => by rwa [htrim.trimMatches_eq_self] at hnil]
    exact iff_of_true ⟨htrim, hback, hat⟩ (rejoins_bare hback hat)

theorem prompt_kept_address :
    promptUser ⟨true⟩ " proto@corp.example ".toList = "corp.example\\proto".toList ∧
      rdpIdentity ⟨promptUser ⟨true⟩ " proto@corp.example ".toList, [], []⟩ (splitDomain " proto@corp.example ".toList).1
        (splitDomain " proto@corp.example ".toList).2 = splitDomain " proto@corp.example ".toList := by
  have htrim : trimMatches blank " proto@corp.example ".toList = "proto@corp.example".toList := by decide +kernel
  refine ⟨by decide +kernel, (prompt_kept_iff rfl _ _).2 ?_⟩
  rw [htrim]
  have heq : "proto@corp.example".toList = "proto".toList ++ '@' :: "corp.example".toList := rfl
  have hlast : "proto".toList.getLast? = some 'o' := by decide +kernel
  have hhead : "corp.example".toList.head? = some 'c' := by decide +kernel
  refine (rejoins_at_iff (by decide +kernel) heq (by decide +kernel) (by decide +kernel)).2 fun _ => ?_
  rw [hlast, hhead]
  simp [blank]

/-- With the backslash in front gone, what is left is split at its `@`. -/
theorem prompt_changes :
    splitDomain "\\alice@corp.example".toList = ([], "alice@corp.example".toList) ∧
      promptUser ⟨true⟩ "\\alice@corp.example".toList = "alice@corp.example".toList ∧
      rdpIdentity ⟨"alice@corp.example".toList, [], []⟩ [] "alice@corp.example".toList = ("corp.example".toList, "alice".toList) ∧
      ¬∀ about : Catalog.About, about.userHasDomain = true → ∀ u password : Str,
        rdpIdentity ⟨promptUser about u, [], password⟩ (splitDomain u).1 (splitDomain u).2 = splitDomain u := by
  refine ⟨by decide +kernel, by decide +kernel, by decide +kernel, fun h => ?_⟩
  exact absurd (h ⟨true⟩ rfl "\\alice@corp.example".toList []) (by decide +kernel)

end Vento.Api
