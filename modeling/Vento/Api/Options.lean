import Mathlib.Data.List.Nodup
import Mathlib.Logic.Function.Basic
import Vento.Lib.Str
/-!
# Settling options

A choice may need a switch, and one whose switch is off does not stay selected: `Options::settle` and
`check_requirements` of `api/src/options.rs`, and `BackendOption.settle` of `BackendOption.java`, the same rule over.

Which choices are stranded depends on the other rows, which change on the way. In lists that are `Offered` they do not
depend on those that change (`settle_run`).
-/

namespace Vento.Api

open Vento.Lib

inductive OptionType where
  | bool
  | choice
  | int
  | text
deriving DecidableEq, Repr

structure Choice where
  value : Str
  /-- The key of the switch that it needs. -/
  requires : Option Str
deriving DecidableEq, Repr

/-- What is used of an option, as either client has it. -/
structure Spec where
  key : Str
  ty : OptionType
  choices : List Choice
  default : Str
deriving DecidableEq, Repr

/-- No switch that it needs is off. -/
def Choice.offered (on : Str → Bool) (c : Choice) : Bool := c.requires.all on

namespace Spec

/-- The choice `value` names, if it needs a switch that is off. -/
def stranded (s : Spec) (value : Str) (on : Str → Bool) : Option Choice :=
  (s.choices.find? fun c => c.value = value).filter fun c => c.requires.any fun key => !on key

def fallback (s : Spec) (on : Str → Bool) : Str :=
  if (s.stranded s.default on).isNone then s.default
  else ((s.choices.find? (·.offered on)).map (·.value)).getD s.default

end Spec

structure Options where
  values : Str → Option Str
  /-- The keys that were set explicitly. -/
  set : Str → Bool

/-- `true` in any case. -/
def parseBoolean (value : Str) : Bool := value.map Char.toLower = "true".toList

namespace Options

def get (o : Options) (key : Str) : Str := (o.values key).getD []

def bool (o : Options) (key : Str) : Bool := parseBoolean (o.get key)

/-- An option at its fallback, which was not chosen. -/
def withdraw (o : Options) (s : Spec) : Options :=
  ⟨Function.update o.values s.key (some (s.fallback o.bool)), fun key => o.set key && key ≠ s.key⟩

/-- What is left, and the keys that changed. -/
def settle (o : Options) : List Spec → Options × List Str
  | [] => (o, [])
  | s :: specs =>
    if (s.stranded (o.get s.key) o.bool).isSome then
      let r := (o.withdraw s).settle specs
      (r.1, s.key :: r.2)
    else o.settle specs

def checkRequirements (o : Options) : List Spec → Except Str Unit
  | [] => .ok ()
  | s :: specs =>
    match s.stranded (o.get s.key) o.bool with
    | some c => .error (s.key ++ '=' :: c.value ++ " needs ".toList ++ c.requires.getD [] ++ "=true".toList)
    | none => o.checkRequirements specs

end Options

/-! ## The other client -/

namespace BackendOption

def stranded (value : Str) (on : Str → Bool) : List Choice → Option Choice
  | [] => none
  | c :: choices =>
    if c.value = value then if c.requires.any fun key => !on key then some c else none
    else stranded value on choices

def firstOffered (on : Str → Bool) : List Choice → Option Str
  | [] => none
  | c :: choices => if c.requires = none ∨ c.requires.any on then some c.value else firstOffered on choices

def fallback (o : Spec) (on : Str → Bool) : Str :=
  if stranded o.default on o.choices = none then o.default else (firstOffered on o.choices).getD o.default

/-- Over what a screen has, of which `value` and `on` read and `set` changes. -/
def settle {σ : Type} (value : σ → Spec → Str) (on : σ → Str → Bool) (set : σ → Spec → Str → σ) : σ → List Spec → σ × List Str
  | screen, [] => (screen, [])
  | screen, o :: options =>
    if o.ty = .choice ∧ stranded (value screen o) (on screen) o.choices ≠ none then
      let r := settle value on set (set screen o (fallback o (on screen))) options
      (r.1, o.key :: r.2)
    else settle value on set screen options

/-- Over a map of the values. -/
def settleMap (values : Str → Option Str) (options : List Spec) : (Str → Option Str) × List Str :=
  settle (fun values o => (values o.key).getD []) (fun values key => parseBoolean ((values key).getD []))
    (fun values o value => Function.update values o.key (some value)) values options

end BackendOption

/-- Keys that differ, choices that need switches of the list, and in every list of choices one that needs none. -/
structure Listed (specs : List Spec) : Prop where
  keys : (specs.map (·.key)).Nodup
  requires : ∀ s ∈ specs, ∀ c ∈ s.choices, ∀ key ∈ c.requires, ∃ t ∈ specs, t.key = key ∧ t.ty = .bool
  free : ∀ s ∈ specs, s.choices ≠ [] → ∃ c ∈ s.choices, c.requires = none

/-- No choices but of a choice, and none by the name of one before it that needs a switch. -/
structure Offered (specs : List Spec) : Prop extends Listed specs where
  choices : ∀ s ∈ specs, s.ty ≠ .choice → s.choices = []
  values : ∀ s ∈ specs, s.choices.Pairwise fun c d => c.value = d.value → c.requires = none

/-! ## One option -/

namespace Spec

variable {s : Spec} {on on' : Str → Bool}

theorem stranded_congr (h : ∀ c ∈ s.choices, ∀ key ∈ c.requires, on key = on' key) (value : Str) :
    s.stranded value on = s.stranded value on' := by
  unfold stranded
  cases hfind : s.choices.find? fun c => c.value = value with
  | none => rfl
  | some c =>
    have hmem := List.mem_of_find?_eq_some hfind
    rw [Option.filter_some, Option.filter_some]
    cases hreq : c.requires with
    | none => rfl
    | some key =>
      have hon : on key = on' key := h c hmem key hreq
      simp only [Option.any_some, hon]

theorem fallback_congr (h : ∀ c ∈ s.choices, ∀ key ∈ c.requires, on key = on' key) : s.fallback on = s.fallback on' := by
  unfold fallback
  rw [stranded_congr h]
  have hfind : s.choices.find? (·.offered on) = s.choices.find? (·.offered on') := by
    rw [← List.head?_filter, ← List.head?_filter]
    refine congrArg List.head? (List.filter_congr fun c hc => ?_)
    unfold Choice.offered
    cases hreq : c.requires with
    | none => rfl
    | some key => exact h c hc key hreq
  rw [hfind]

/-- What a stranded choice falls back to is on offer. -/
theorem stranded_fallback (hfree : s.choices ≠ [] → ∃ c ∈ s.choices, c.requires = none)
    (hvalues : s.choices.Pairwise fun c d => c.value = d.value → c.requires = none) (on : Str → Bool) :
    s.stranded (s.fallback on) on = none := by
  unfold fallback
  split
  · next h => exact Option.isNone_iff_eq_none.1 h
  · next h =>
    have hne : s.choices ≠ [] := by
      intro hnil
      rw [stranded, hnil] at h
      exact h rfl
    obtain ⟨free, hmem, hnone⟩ := hfree hne
    have hoffered : free.offered on = true := by rw [Choice.offered, hnone]; rfl
    cases hfind : s.choices.find? (·.offered on) with
    | none => exact absurd hoffered (List.find?_eq_none.1 hfind free hmem)
    | some c =>
      obtain ⟨hc, pre, post, heq, hpre⟩ := List.find?_eq_some_iff_append.1 hfind
      rw [Option.map_some, Option.getD_some, stranded]
      rw [heq, List.pairwise_append] at hvalues
      -- Nothing before it has its value, as that would be on offer.
      have hself : s.choices.find? (fun d => d.value = c.value) = some c := by
        refine List.find?_eq_some_iff_append.2 ⟨decide_eq_true rfl, pre, post, heq, fun d hd => ?_⟩
        have hnot := hpre d hd
        by_cases hvalue : d.value = c.value
        · rw [Choice.offered, hvalues.2.2 d hd c List.mem_cons_self hvalue] at hnot
          cases hnot
        · simp [hvalue]
      rw [hself, Option.filter_some]
      unfold Choice.offered at hc
      cases hreq : c.requires with
      | none => rfl
      | some key =>
        rw [hreq] at hc
        have hon : on key = true := hc
        simp [hon]

end Spec

theorem BackendOption.stranded_eq (value : Str) (on : Str → Bool) (s : Spec) :
    BackendOption.stranded value on s.choices = s.stranded value on := by
  unfold Spec.stranded
  induction s.choices with
  | nil => rfl
  | cons c choices ih =>
    rw [BackendOption.stranded, List.find?_cons]
    by_cases h : c.value = value
    · rw [if_pos h, decide_eq_true h, Option.filter_some]
    · rw [if_neg h, decide_eq_false h, ih]

theorem BackendOption.fallback_eq (on : Str → Bool) (s : Spec) : BackendOption.fallback s on = s.fallback on := by
  have hfirst : BackendOption.firstOffered on s.choices = (s.choices.find? (·.offered on)).map (·.value) := by
    induction s.choices with
    | nil => rfl
    | cons c choices ih =>
      rw [BackendOption.firstOffered, List.find?_cons, ih]
      unfold Choice.offered
      cases c.requires with
      | none => rfl
      | some key => cases h : on key <;> simp [h]
  unfold BackendOption.fallback Spec.fallback
  rw [BackendOption.stranded_eq, hfirst]
  exact if_congr Option.isNone_iff_eq_none.symm rfl rfl

/-! ## All of them -/

namespace Options

/-- The option's value is stranded. -/
def moves (o : Options) (s : Spec) : Bool := (s.stranded (o.get s.key) o.bool).isSome

theorem settle_cons (o : Options) (s : Spec) (specs : List Spec) :
    o.settle (s :: specs) =
      if o.moves s then (((o.withdraw s).settle specs).1, s.key :: ((o.withdraw s).settle specs).2) else o.settle specs := rfl

section Withdraw

variable (o : Options) (s : Spec)

theorem withdraw_values_self : (o.withdraw s).values s.key = some (s.fallback o.bool) := Function.update_self _ _ _

theorem withdraw_set_self : (o.withdraw s).set s.key = false := by simp [withdraw]

variable {s} {key : Str} (h : key ≠ s.key)

include h

theorem withdraw_values : (o.withdraw s).values key = o.values key := Function.update_of_ne h _ _

theorem withdraw_set : (o.withdraw s).set key = o.set key := by simp [withdraw, h]

theorem withdraw_get : (o.withdraw s).get key = o.get key := by rw [get, withdraw_values o h, get]

end Withdraw

section Settle

variable {specs : List Spec} (hspecs : Offered specs) {o : Options}

/-- Another state in which the switches are as in `o`. -/
def Alike (specs : List Spec) (o o' : Options) : Prop := ∀ t ∈ specs, t.ty = .bool → o'.get t.key = o.get t.key

include hspecs

omit hspecs in
theorem Alike.refl (specs : List Spec) (o : Options) : Alike specs o o := fun _ _ _ => rfl

/-- What is stranded depends on the option's value and on the switches. -/
theorem on_eq {o' : Options} (ha : Alike specs o o') {s : Spec} (hs : s ∈ specs) :
    ∀ c ∈ s.choices, ∀ key ∈ c.requires, o'.bool key = o.bool key := by
  intro c hc key hkey
  obtain ⟨t, ht, rfl, hbool⟩ := hspecs.requires s hs c hc key hkey
  rw [bool, bool, ha t ht hbool]

theorem moves_eq {o' : Options} (ha : Alike specs o o') {s : Spec} (hs : s ∈ specs) (hget : o'.get s.key = o.get s.key) :
    o'.moves s = o.moves s := by
  rw [moves, moves, hget, Spec.stranded_congr (on_eq hspecs ha hs)]

/-- Switches are not among the options that are withdrawn. -/
theorem Alike.withdraw {o' : Options} (ha : Alike specs o o') {s : Spec} (hs : s ∈ specs) (hmoves : o'.moves s = true) :
    Alike specs o (o'.withdraw s) := by
  intro t ht hbool
  have hchoice : s.ty = .choice := by
    by_contra hne
    rw [moves, Spec.stranded, hspecs.choices s hs hne] at hmoves
    cases hmoves
  have hkey : t.key ≠ s.key := by
    intro heq
    have hts := List.inj_on_of_nodup_map hspecs.keys ht hs heq
    rw [hts, hchoice] at hbool
    cases hbool
  rw [withdraw_get o' hkey, ha t ht hbool]

/-- What a pass over some of the options does, whatever it did before: those whose value was stranded, in their order, and
nothing else. -/
theorem settle_run {l : List Spec} {o' : Options} (hl : ∀ s ∈ l, s ∈ specs) (hnodup : (l.map (·.key)).Nodup)
    (ha : Alike specs o o') (hget : ∀ s ∈ l, o'.get s.key = o.get s.key) :
    (o'.settle l).2 = (l.filter o.moves).map (·.key) ∧
      (∀ s ∈ l, o.moves s = true → (o'.settle l).1.values s.key = some (s.fallback o.bool) ∧ (o'.settle l).1.set s.key = false) ∧
      ∀ key, key ∉ (o'.settle l).2 → (o'.settle l).1.values key = o'.values key ∧ (o'.settle l).1.set key = o'.set key := by
  induction l generalizing o' with
  | nil => exact ⟨rfl, nofun, fun key _ => ⟨rfl, rfl⟩⟩
  | cons s l ih =>
    rw [List.forall_mem_cons] at hl hget
    rw [List.map_cons, List.nodup_cons] at hnodup
    have hmoves := moves_eq hspecs ha hl.1 hget.1
    rw [settle_cons, List.filter_cons, hmoves]
    by_cases hm : o.moves s = true
    · have hne : ∀ t ∈ l, t.key ≠ s.key := fun t ht heq => hnodup.1 (heq ▸ List.mem_map_of_mem ht)
      obtain ⟨hchanged, hmoved, hrest⟩ := ih hl.2 hnodup.2 (ha.withdraw hspecs hl.1 (hmoves.trans hm))
        fun t ht => by rw [withdraw_get o' (hne t ht), hget.2 t ht]
      -- The rest of the pass leaves what was withdrawn, as no other option has its key.
      have hnot : s.key ∉ ((o'.withdraw s).settle l).2 := by
        rw [hchanged, List.mem_map]
        rintro ⟨t, ht, heq⟩
        exact hne t (List.mem_of_mem_filter ht) heq
      rw [if_pos hm, if_pos hm, List.map_cons]
      refine ⟨congrArg (s.key :: ·) hchanged, ?_, ?_⟩
      · rw [List.forall_mem_cons]
        refine ⟨fun _ => ?_, hmoved⟩
        obtain ⟨hvalues, hset⟩ := hrest s.key hnot
        rw [hvalues, hset, withdraw_values_self, withdraw_set_self, Spec.fallback_congr (on_eq hspecs ha hl.1)]
        exact ⟨rfl, rfl⟩
      · intro key hkey
        rw [List.mem_cons, not_or] at hkey
        obtain ⟨hvalues, hset⟩ := hrest key hkey.2
        rw [hvalues, hset, withdraw_values o' hkey.1, withdraw_set o' hkey.1]
        exact ⟨rfl, rfl⟩
    · obtain ⟨hchanged, hmoved, hrest⟩ := ih hl.2 hnodup.2 ha hget.2
      rw [if_neg hm, if_neg hm]
      refine ⟨hchanged, ?_, hrest⟩
      rw [List.forall_mem_cons]
      exact ⟨fun h => absurd h hm, hmoved⟩

/-- The options' own choices after a pass. -/
theorem settle_get {s : Spec} (hs : s ∈ specs) :
    (o.settle specs).1.get s.key = if o.moves s then s.fallback o.bool else o.get s.key := by
  obtain ⟨hchanged, hmoved, hrest⟩ := settle_run hspecs (fun s hs => hs) hspecs.keys (Alike.refl specs o) (fun _ _ => rfl)
  split
  · next hm => rw [get, (hmoved s hs hm).1, Option.getD_some]
  · next hm =>
    have hnot : s.key ∉ (o.settle specs).2 := by
      rw [hchanged, List.mem_map]
      rintro ⟨t, ht, heq⟩
      obtain ⟨ht, hmoves⟩ := List.mem_filter.1 ht
      rw [List.inj_on_of_nodup_map hspecs.keys ht hs heq] at hmoves
      exact hm hmoves
    rw [get, (hrest s.key hnot).1, get]

/-- The switches stay. -/
theorem settle_alike : Alike specs o (o.settle specs).1 := by
  intro t ht hbool
  have hnot : o.moves t = false := by
    rw [moves, Spec.stranded, hspecs.choices t ht (by rw [hbool]; exact OptionType.noConfusion)]
    rfl
  rw [settle_get hspecs ht, hnot]
  rfl

/-- Nothing is stranded after a pass. -/
theorem settled {s : Spec} (hs : s ∈ specs) : (o.settle specs).1.moves s = false := by
  rw [moves, settle_get hspecs hs, Spec.stranded_congr (on_eq hspecs (settle_alike hspecs) hs)]
  split
  · rw [Spec.stranded_fallback (hspecs.free s hs) (hspecs.values s hs)]
    rfl
  · next hm => simpa [moves] using hm

end Settle

/-- Where nothing is stranded, nothing is refused and nothing changes. -/
theorem of_settled {o : Options} {specs : List Spec} (h : ∀ s ∈ specs, o.moves s = false) :
    o.checkRequirements specs = .ok () ∧ o.settle specs = (o, []) := by
  induction specs with
  | nil => exact ⟨rfl, rfl⟩
  | cons s specs ih =>
    rw [List.forall_mem_cons] at h
    have hnone : s.stranded (o.get s.key) o.bool = none := by simpa [moves] using h.1
    refine ⟨?_, ?_⟩
    · rw [checkRequirements, hnone]
      exact (ih h.2).1
    · rw [settle_cons, h.1]
      exact (ih h.2).2

/-- The other client moves the same options, where only choices have any. -/
theorem settleMap_eq {specs : List Spec} (h : ∀ s ∈ specs, s.ty ≠ .choice → s.choices = []) (o : Options) :
    BackendOption.settleMap o.values specs = ((o.settle specs).1.values, (o.settle specs).2) := by
  unfold BackendOption.settleMap
  induction specs generalizing o with
  | nil => rfl
  | cons s specs ih =>
    rw [List.forall_mem_cons] at h
    have hcond : (s.ty = .choice ∧ BackendOption.stranded (o.get s.key) o.bool s.choices ≠ none) ↔ o.moves s = true := by
      rw [BackendOption.stranded_eq, moves, Option.isSome_iff_ne_none]
      refine ⟨fun hs => hs.2, fun hs => ⟨?_, hs⟩⟩
      by_contra hne
      rw [Spec.stranded, h.1 hne] at hs
      exact hs rfl
    rw [BackendOption.settle, settle_cons]
    refine (if_congr hcond ?_ (ih h.2 o)).trans (apply_ite (fun r : Options × List Str => (r.1.values, r.2)) _ _ _).symm
    have hwithdraw : Function.update o.values s.key (some (BackendOption.fallback s o.bool)) = (o.withdraw s).values := by
      rw [BackendOption.fallback_eq]
      rfl
    have hrest := ih h.2 (o.withdraw s)
    rw [← hwithdraw] at hrest
    exact congrArg (fun r : (Str → Option Str) × List Str => (r.1, s.key :: r.2)) hrest

end Options

/-- A pass over options that are on offer leaves nothing stranded and nothing to do for another; it changes those whose value
was stranded, and they no longer count as set; and the other client's does the same. -/
theorem settle_rule {specs : List Spec} (h : Offered specs) (o : Options) :
    (o.settle specs).1.checkRequirements specs = .ok () ∧ (o.settle specs).1.settle specs = ((o.settle specs).1, []) ∧
      (o.settle specs).2 = (specs.filter o.moves).map (·.key) ∧
      (∀ key, key ∉ (o.settle specs).2 → (o.settle specs).1.values key = o.values key ∧ (o.settle specs).1.set key = o.set key) ∧
      (∀ key ∈ (o.settle specs).2, (o.settle specs).1.set key = false) ∧
      BackendOption.settleMap o.values specs = ((o.settle specs).1.values, (o.settle specs).2) := by
  obtain ⟨hok, hagain⟩ := Options.of_settled fun s hs => Options.settled h (o := o) hs
  obtain ⟨hchanged, hmoved, hrest⟩ :=
    Options.settle_run h (fun s hs => hs) h.keys (Options.Alike.refl specs o) (fun _ _ => rfl)
  refine ⟨hok, hagain, hchanged, hrest, ?_, Options.settleMap_eq h.choices o⟩
  intro key hkey
  rw [hchanged] at hkey
  obtain ⟨s, hs, rfl⟩ := List.mem_map.1 hkey
  obtain ⟨hs, hm⟩ := List.mem_filter.1 hs
  exact (hmoved s hs hm).2

/-! ## Lists -/

def hardware : Spec := ⟨"Hardware".toList, .bool, [], "false".toList⟩

/-- A choice whose default needs a switch. -/
def codec : Spec :=
  ⟨"Codec".toList, .choice, [⟨"hevc".toList, some "Hardware".toList⟩, ⟨"av1".toList, some "Hardware".toList⟩, ⟨"vp9".toList, none⟩],
    "hevc".toList⟩

/-- The switch off, and a value for the other option. -/
def valued (key value : Str) : Options :=
  ⟨fun k => if k = key then some value else if k = "Hardware".toList then some "false".toList else none, fun _ => true⟩

theorem offered_codec : Offered [codec, hardware] := by
  constructor
  · constructor
    · decide
    · decide
    · decide
  · decide
  · decide

theorem settle_rule_codec :
    ((valued "Codec".toList "av1".toList).settle [codec, hardware]).2 = ["Codec".toList] ∧
      ((valued "Codec".toList "av1".toList).settle [codec, hardware]).1.get "Codec".toList = "vp9".toList ∧
      ((valued "Codec".toList "av1".toList).settle [codec, hardware]).1.checkRequirements [codec, hardware] = .ok () :=
  ⟨by decide, by decide, (settle_rule offered_codec (valued "Codec".toList "av1".toList)).1⟩

/-- A choice whose name an earlier one has that needs a switch. -/
def twice : Spec := { codec with choices := [⟨"hevc".toList, some "Hardware".toList⟩, ⟨"hevc".toList, none⟩] }

/-- A text that has choices. -/
def told : Spec := { codec with ty := .text }

/-- In a list with the one the fallback is stranded too, and another pass moves it again; in a list with the other the two clients
differ. -/
theorem listed_differ :
    (Listed [twice, hardware] ∧
      ((valued "Codec".toList "hevc".toList).settle [twice, hardware]).1.checkRequirements [twice, hardware] =
        .error "Codec=hevc needs Hardware=true".toList ∧
      (((valued "Codec".toList "hevc".toList).settle [twice, hardware]).1.settle [twice, hardware]).2 = ["Codec".toList]) ∧
    Listed [told, hardware] ∧
      (BackendOption.settleMap (valued "Codec".toList "hevc".toList).values [told, hardware]).2 = [] ∧
      ((valued "Codec".toList "hevc".toList).settle [told, hardware]).2 = ["Codec".toList] := by
  refine ⟨⟨?_, ?_, by decide⟩, ?_, by decide, by decide⟩
  · constructor
    · decide
    · decide
    · decide
  · rfl
  · constructor
    · decide
    · decide
    · decide

end Vento.Api
