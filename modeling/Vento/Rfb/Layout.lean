import Mathlib.Algebra.Ring.Nat
import Mathlib.Data.List.Nodup
import Vento.Lib.Assign
/-!
# Layouts of screens that are asked for

`requested_layout` of `rfb/src/client.rs`, `buildLayout` of `libvnc/cpp/libvnc_session.c` and `heads_for` of
`spice/src/client.rs`. Each goes through the wanted screens and gives them ids against the ones there are; `assign` is
what all three give (`layouts_agree`). A result is `none` where a search for a free id never ends, or runs out of ids.
-/

namespace Vento.Rfb.Layout

open Vento.Lib Assign

structure Screen where
  id : UInt32
  x : UInt16
  y : UInt16
  width : UInt16
  height : UInt16
  flags : UInt32
deriving DecidableEq, Repr

/-- The first number from `n` on that is not used; there are no more than `fuel` to try. -/
def firstFree (used : UInt32 → Bool) : Nat → UInt32 → Option UInt32
  | 0, _ => none
  | fuel + 1, n => if used n then firstFree used fuel (n + 1) else some n

/-! ## RFB, in Rust -/

/-- The screens that are kept, one after another; `seen` is those before, with what they keep. -/
def keptScreens (old : List Screen) : List (Screen × Option Screen) → List Screen → List (Screen × Option Screen)
  | seen, [] => seen
  | seen, w :: ws =>
    let again := seen.any fun p => p.2.isSome && p.1.id == w.id
    keptScreens old (seen ++ [(w, if again then none else old.find? (·.id == w.id))]) ws

def fits (width height : UInt16) (w : Screen) : Prop :=
  0 < w.width ∧ 0 < w.height ∧ w.x.toUInt32 + w.width.toUInt32 ≤ width.toUInt32 ∧ w.y.toUInt32 + w.height.toUInt32 ≤ height.toUInt32

instance (width height : UInt16) (w : Screen) : Decidable (fits width height w) := inferInstanceAs (Decidable (_ ∧ _ ∧ _ ∧ _))

def layoutLoop (old : List Screen) (all : List (Screen × Option Screen)) (width height : UInt16) :
    UInt32 → List (Screen × Option Screen) → Option (Option (List Screen))
  | _, [] => some (some [])
  | next, (w, k) :: rest =>
    if ¬fits width height w then some none
    else match k with
      | some h =>
        (layoutLoop old all width height next rest).map (Option.map ({ w with id := h.id, flags := h.flags } :: ·))
      | none => do
        let used := fun id => old.any (·.id == id) || all.any fun p => p.2.isSome && p.1.id == id
        let id ← firstFree used (2 ^ 32) next
        (layoutLoop old all width height (id + 1) rest).map (Option.map ({ w with id := id, flags := 0 } :: ·))

def requestedLayout (old : List Screen) (width height : UInt16) (wanted : List Screen) : Option (Option (List Screen)) :=
  if wanted.isEmpty || wanted.length > 255 then some none
  else
    let all := keptScreens old [] wanted
    layoutLoop old all width height 0 all

/-! ## RFB, in C -/

/-- `rfbClientSwap16IfLE` and `rfbClientSwap32IfLE`: between the machine's order of bytes and the network's. -/
structure ByteOrder where
  swap16 : UInt16 → UInt16
  swap32 : UInt32 → UInt32
  swap32_swap32 : ∀ x, swap32 (swap32 x) = x

/-- `rfbExtDesktopScreen`, in network order. -/
structure ExtDesktopScreen where
  id : UInt32
  x : UInt16
  y : UInt16
  width : UInt16
  height : UInt16
  flags : UInt32
deriving DecidableEq, Repr

/-- Five ints of a request. -/
structure Flat where
  id : Int32
  x : Int32
  y : Int32
  width : Int32
  height : Int32
deriving DecidableEq, Repr

variable (o : ByteOrder)

def serverScreen (screens : List ExtDesktopScreen) (id : UInt32) : Option ExtDesktopScreen :=
  screens.find? fun s => o.swap32 s.id == id

/-- `kept`, beside what it is of. -/
def keptFlags (screens : List ExtDesktopScreen) : List (Flat × Bool) → List Flat → List (Flat × Bool)
  | seen, [] => seen
  | seen, m :: ms =>
    let id := m.id.toUInt32
    let again := seen.any fun p => p.2 && p.1.id.toUInt32 == id
    keptFlags screens (seen ++ [(m, !again && (serverScreen o screens id).isSome)]) ms

def outside (width height : Int32) (m : Flat) : Prop :=
  m.x < 0 ∨ m.y < 0 ∨ m.width ≤ 0 ∨ m.height ≤ 0 ∨ width - m.width < m.x ∨ height - m.height < m.y

instance (width height : Int32) (m : Flat) : Decidable (outside width height m) := inferInstanceAs (Decidable (_ ∨ _ ∨ _ ∨ _ ∨ _ ∨ _))

/-- What is sent of a screen. -/
def sent (m : Flat) (id flags : UInt32) : ExtDesktopScreen :=
  ⟨o.swap32 id, o.swap16 m.x.toUInt32.toUInt16, o.swap16 m.y.toUInt32.toUInt16, o.swap16 m.width.toUInt32.toUInt16,
    o.swap16 m.height.toUInt32.toUInt16, o.swap32 flags⟩

def buildLoop (screens : List ExtDesktopScreen) (all : List (Flat × Bool)) (width height : Int32) :
    UInt32 → List (Flat × Bool) → Option (Option (List ExtDesktopScreen))
  | _, [] => some (some [])
  | next, (m, k) :: rest =>
    if outside width height m then some none
    else if k then do
      let id := m.id.toUInt32
      let s ← serverScreen o screens id
      (buildLoop screens all width height next rest).map (Option.map (sent o m id (o.swap32 s.flags) :: ·))
    else do
      let used := fun id => (serverScreen o screens id).isSome || all.any fun p => p.2 && p.1.id.toUInt32 == id
      let id ← firstFree used (2 ^ 32) next
      (buildLoop screens all width height (id + 1) rest).map (Option.map (sent o m id 0 :: ·))

/-- `buildLayout`; `none` inside is its false. -/
def buildLayout (screens : List ExtDesktopScreen) (width height : Int32) (flat : List Flat) : Option (Option (List ExtDesktopScreen)) :=
  if flat.length ≤ 0 ∨ flat.length > 255 then some none
  else
    let all := keptFlags o screens [] flat
    buildLoop o screens all width height 0 all

/-! ## SPICE -/

/-- A head's place and size. -/
structure Head where
  x : Int32
  y : Int32
  width : UInt32
  height : UInt32
deriving DecidableEq, Repr

/-- A place for a head, with room made for it. -/
def place (placed : List (Option Head)) (i : Nat) (head : Head) : List (Option Head) :=
  (if placed.length ≤ i then placed ++ List.replicate (i + 1 - placed.length) none else placed).set i (some head)

/-- The head that a screen is: its own, or the lowest that is in neither list. -/
def headId (old known taken : List UInt32) (w : UInt32) : Option UInt32 :=
  if old.contains w && !taken.contains w then some w
  else firstFree (fun n => old.contains n || known.contains n || taken.contains n) (2 ^ 32) 0

def headsLoop (old known : List UInt32) (max : Nat) :
    List (Option Head) → List UInt32 → List (UInt32 × Head) → Option (List (Option Head))
  | placed, _, [] => some placed
  | placed, taken, (w, head) :: rest => do
    let id ← headId old known taken w
    if max > 0 ∧ id.toNat ≥ max then headsLoop old known max placed taken rest
    else headsLoop old known max (place placed id.toNat head) (taken ++ [id]) rest

def headsFor (screens : List (UInt32 × Head)) (old : List UInt32) (max : Nat) : Option (List Head) := do
  let known := (screens.map Prod.fst).filter (old.contains ·)
  let placed ← headsLoop old known max [] [] screens
  return placed.map (·.getD ⟨0, 0, 0, 0⟩)

/-! ## The search -/

theorem firstFree_eq {used : UInt32 → Bool} {N : Nat} (hN : N < 2 ^ 32) (hfree : used (UInt32.ofNat N) = false) {fuel : Nat}
    {n : UInt32} (hle : n.toNat ≤ N) (hfuel : N - n.toNat < fuel)
    (hused : ∀ m, n.toNat ≤ m → m < N → used (UInt32.ofNat m) = true) : firstFree used fuel n = some (UInt32.ofNat N) := by
  induction fuel generalizing n with
  | zero => exact absurd hfuel (Nat.not_lt_zero _)
  | succ fuel ih =>
    rw [firstFree]
    rcases Nat.eq_or_lt_of_le hle with heq | hlt
    · have hn : n = UInt32.ofNat N := by rw [← heq, UInt32.ofNat_toNat]
      rw [hn, hfree]
      rfl
    · have htrue := hused n.toNat (Nat.le_refl _) hlt
      rw [UInt32.ofNat_toNat] at htrue
      have hnext : (n + 1).toNat = n.toNat + 1 := by
        rw [UInt32.toNat_add]
        exact Nat.mod_eq_of_lt (show n.toNat + 1 < 2 ^ 32 by omega)
      rw [if_pos htrue]
      exact ih (by omega) (by omega) fun m hm hmN => hused m (by omega) hmN

def oldIds (old : List Screen) : List Nat := old.map fun s => s.id.toNat

theorem mem_oldIds {old : List Screen} {id : UInt32} : id.toNat ∈ oldIds old ↔ (old.any (·.id == id)) = true := by
  rw [oldIds, List.mem_map, List.any_eq_true]
  constructor
  · rintro ⟨s, hs, heq⟩
    exact ⟨s, hs, by simpa using UInt32.toNat_inj.1 heq⟩
  · rintro ⟨s, hs, heq⟩
    exact ⟨s, hs, congrArg UInt32.toNat (by simpa using heq)⟩

theorem toNat_ofNat {n : Nat} (h : n < 2 ^ 32) : (UInt32.ofNat n).toNat = n := by
  rw [UInt32.toNat_ofNat', Nat.mod_eq_of_lt h]

/-- A search that goes past what is old finds the lowest free number. -/
theorem firstFree_lowest {old : List Nat} {done : List Nat} {next : UInt32} (hstarts : Starts old done next.toNat)
    (hlt : lowest (old ++ done) < 2 ^ 32) {used : UInt32 → Bool} (hused : ∀ id, used id = true ↔ id.toNat ∈ old) :
    firstFree used (2 ^ 32) next = some (UInt32.ofNat (lowest (old ++ done))) := by
  refine firstFree_eq hlt ?_ hstarts.le (Nat.lt_of_le_of_lt (Nat.sub_le _ _) hlt) fun m hm hmN => ?_
  · rw [← Bool.not_eq_true, hused, toNat_ofNat hlt]
    exact lowest_notMem_old old done
  · rw [hused, toNat_ofNat (Nat.lt_trans hmN hlt)]
    exact hstarts.mem_old hm hmN

/-! ## What RFB asks for -/

/-- What a screen of the list keeps, as a mark. -/
def mark (p : Screen × Option Screen) : Nat × Bool := (p.1.id.toNat, p.2.isSome)

/-- What is kept is the screen of that id. -/
def Kept (old : List Screen) (p : Screen × Option Screen) : Prop := p.2 = none ∨ p.2 = old.find? (·.id == p.1.id)

theorem Kept.mem {old : List Screen} {p : Screen × Option Screen} (h : Kept old p) (hsome : p.2.isSome = true) :
    p.1.id.toNat ∈ oldIds old := by
  rcases h with h | h
  · rw [h] at hsome
    cases hsome
  · rw [h, List.find?_isSome] at hsome
    exact mem_oldIds.2 (List.any_eq_true.2 hsome)

theorem keptScreens_marks (old : List Screen) (seen : List (Screen × Option Screen)) (ws : List Screen) :
    (keptScreens old seen ws).map mark = marks (oldIds old) (seen.map mark) (ws.map fun w => w.id.toNat) := by
  induction ws generalizing seen with
  | nil => rfl
  | cons w ws ih =>
    have hagain : ((seen.map mark).any fun p => p.2 && p.1 == w.id.toNat) = seen.any fun p => p.2.isSome && p.1.id == w.id := by
      rw [List.any_map]
      refine congrArg (List.any seen) (funext fun p => ?_)
      show (p.2.isSome && p.1.id.toNat == w.id.toNat) = _
      rw [Bool.eq_iff_iff]
      simp [UInt32.toNat_inj]
    have hsome : (old.find? (·.id == w.id)).isSome = decide (w.id.toNat ∈ oldIds old) := by
      rw [Bool.eq_iff_iff, decide_eq_true_iff, mem_oldIds, List.find?_isSome, List.any_eq_true]
    show _ = marks (oldIds old) (seen.map mark) (w.id.toNat :: ws.map fun w => w.id.toNat)
    rw [keptScreens, ih, List.map_append, marks, hagain, ← hsome]
    cases seen.any fun p => p.2.isSome && p.1.id == w.id with
    | true => rfl
    | false => rfl

theorem keptScreens_kept {old : List Screen} {seen : List (Screen × Option Screen)} (h : ∀ p ∈ seen, Kept old p) (ws : List Screen) :
    ∀ p ∈ keptScreens old seen ws, Kept old p := by
  induction ws generalizing seen with
  | nil => exact h
  | cons w ws ih =>
    refine ih fun p hp => ?_
    rcases List.mem_append.1 hp with hp | hp
    · exact h p hp
    · rw [List.mem_singleton.1 hp]
      unfold Kept
      dsimp only
      split
      · exact .inl rfl
      · exact .inr rfl

theorem keptScreens_fst (old : List Screen) (seen : List (Screen × Option Screen)) (ws : List Screen) :
    (keptScreens old seen ws).map Prod.fst = seen.map Prod.fst ++ ws := by
  induction ws generalizing seen with
  | nil => rw [keptScreens, List.append_nil]
  | cons w ws ih =>
    rw [keptScreens, ih, List.map_append, List.append_assoc]
    rfl

/-- The flags of an id: those of its screen, and none where there is none. -/
def flagsAt (old : List Screen) (id : UInt32) : UInt32 := ((old.find? (·.id == id)).map Screen.flags).getD 0

/-- The screens where they are wanted, by the ids they are given. -/
def laidOut (old ws : List Screen) (ids : List Nat) : List Screen :=
  (ws.zip ids).map fun p => { p.1 with id := UInt32.ofNat p.2, flags := flagsAt old (UInt32.ofNat p.2) }

theorem layoutLoop_eq {old : List Screen} {all : List (Screen × Option Screen)} (hall : ∀ p ∈ all, Kept old p) (width height : UInt16)
    {rest : List (Screen × Option Screen)} (hrest : ∀ p ∈ rest, Kept old p) {seen done : List Nat} {next : UInt32}
    (hmarks : rest.map mark = keeps (oldIds old) seen (rest.map fun p => p.1.id.toNat)) (hstarts : Starts (oldIds old) done next.toNat)
    (hlen : old.length + done.length + rest.length < 2 ^ 32) :
    layoutLoop old all width height next rest =
      some (if ∀ p ∈ rest, fits width height p.1 then
        some (laidOut old (rest.map Prod.fst) (assign (oldIds old) seen done (rest.map fun p => p.1.id.toNat)))
      else none) := by
  have hused : ∀ id : UInt32, (old.any (·.id == id) || all.any fun p => p.2.isSome && p.1.id == id) = true ↔ id.toNat ∈ oldIds old := by
    intro id
    rw [Bool.or_eq_true, ← mem_oldIds, or_iff_left_of_imp]
    intro h
    obtain ⟨p, hp, hmark⟩ := List.any_eq_true.1 h
    obtain ⟨hsome, hid⟩ := Bool.and_eq_true_iff.1 hmark
    exact eq_of_beq hid ▸ (hall p hp).mem hsome
  induction rest generalizing seen done next with
  | nil => rfl
  | cons p rest ih =>
    obtain ⟨w, k⟩ := p
    obtain ⟨hmark, hmarks⟩ := List.cons.inj hmarks
    rw [List.length_cons] at hlen
    -- Whichever id the screen gets, the loop goes on with it given.
    have hpick : ∀ (id next' : UInt32), id.toNat = pick (oldIds old) seen done w.id.toNat →
        Starts (oldIds old) (done ++ [id.toNat]) next'.toNat →
        (layoutLoop old all width height next' rest).map (Option.map ({ w with id := id, flags := flagsAt old id } :: ·)) =
          some (if ∀ p ∈ rest, fits width height p.1 then
            some (laidOut old (w :: rest.map Prod.fst)
              (assign (oldIds old) seen done (w.id.toNat :: rest.map fun p => p.1.id.toNat)))
          else none) := by
      intro id next' hid hstarts'
      rw [ih (fun p hp => hrest p (.tail _ hp)) hmarks hstarts' (by rw [List.length_append, List.length_singleton]; omega), Option.map_some,
        apply_ite (Option.map _), Option.map_some, Option.map_none, assign, ← hid]
      congr 3
      rw [laidOut, laidOut, List.zip_cons_cons, List.map_cons, UInt32.ofNat_toNat]
    unfold layoutLoop
    rw [List.map_cons, List.map_cons]
    dsimp only
    by_cases hfits : fits width height w
    · have hcond : (∀ p ∈ (w, k) :: rest, fits width height p.1) ↔ ∀ p ∈ rest, fits width height p.1 := by
        rw [List.forall_mem_cons]
        exact and_iff_right hfits
      rw [if_neg (not_not_intro hfits)]
      simp only [hcond]
      cases k with
      | some h =>
        have hkept : w.id.toNat ∈ oldIds old ∧ w.id.toNat ∉ seen := of_decide_eq_true (congrArg Prod.snd hmark).symm
        have hfind : old.find? (·.id == w.id) = some h := by
          rcases hrest _ List.mem_cons_self with hnone | hsome
          · cases hnone
          · exact hsome.symm
        have hid : h.id = w.id := by simpa using List.find?_some hfind
        have hflags : flagsAt old w.id = h.flags := by
          rw [flagsAt, hfind]
          rfl
        have hgoal := hpick w.id next (if_pos hkept).symm (hstarts.keep hkept.1)
        rw [hflags] at hgoal
        dsimp only
        rw [hid]
        exact hgoal
      | none =>
        have hnew : ¬(w.id.toNat ∈ oldIds old ∧ w.id.toNat ∉ seen) := of_decide_eq_false (congrArg Prod.snd hmark).symm
        have hpick' : pick (oldIds old) seen done w.id.toNat = lowest (oldIds old ++ done) := if_neg hnew
        have hle := lowest_le_length (oldIds old ++ done)
        rw [List.length_append, oldIds, List.length_map] at hle
        have hlt : lowest (oldIds old ++ done) + 1 < 2 ^ 32 := by
          unfold oldIds
          omega
        have hnat : (UInt32.ofNat (lowest (oldIds old ++ done))).toNat = lowest (oldIds old ++ done) := toNat_ofNat (by omega)
        have hnext : (UInt32.ofNat (lowest (oldIds old ++ done)) + 1).toNat = lowest (oldIds old ++ done) + 1 := by
          rw [UInt32.toNat_add, hnat]
          exact Nat.mod_eq_of_lt hlt
        have hflags : flagsAt old (UInt32.ofNat (lowest (oldIds old ++ done))) = 0 := by
          rw [flagsAt, List.find?_eq_none.2]
          · rfl
          · intro s hs heq
            refine lowest_notMem_old (oldIds old) done (List.mem_map.2 ⟨s, hs, ?_⟩)
            rw [eq_of_beq heq, hnat]
        have hgoal := hpick _ (UInt32.ofNat (lowest (oldIds old ++ done)) + 1) (hnat.trans hpick'.symm)
          (by rw [hnat, hnext]; exact hstarts.give)
        rw [hflags] at hgoal
        dsimp only
        rw [firstFree_lowest hstarts (by omega) hused, Option.bind_eq_bind, Option.bind_some]
        exact hgoal
    · have hcond : ¬∀ p ∈ (w, k) :: rest, fits width height p.1 := fun h => hfits (h _ List.mem_cons_self)
      rw [if_pos hfits, if_neg hcond]

/-- A layout of the desktop: some screens and no more than a byte can count, none empty or outside it. -/
def Valid (width height : UInt16) (wanted : List Screen) : Prop :=
  (1 ≤ wanted.length ∧ wanted.length ≤ 255) ∧ ∀ w ∈ wanted, fits width height w

instance (width height : UInt16) (wanted : List Screen) : Decidable (Valid width height wanted) := inferInstanceAs (Decidable (_ ∧ _))

/-- The ids that the wanted screens get. -/
def given (old wanted : List Screen) : List Nat := assign (oldIds old) [] [] (wanted.map fun w => w.id.toNat)

theorem requestedLayout_eq {old : List Screen} (hlen : old.length + 255 < 2 ^ 32) (width height : UInt16) (wanted : List Screen) :
    requestedLayout old width height wanted =
      some (if Valid width height wanted then some (laidOut old wanted (given old wanted)) else none) := by
  have hkept := @keptScreens_kept old [] (fun _ hp => nomatch hp) wanted
  have hfst : (keptScreens old [] wanted).map Prod.fst = wanted := keptScreens_fst old [] wanted
  have hids : (keptScreens old [] wanted).map (fun p => p.1.id.toNat) = wanted.map fun w => w.id.toNat := by
    rw [← hfst, List.map_map, hfst]
    rfl
  have hmarks : (keptScreens old [] wanted).map mark = keeps (oldIds old) [] (wanted.map fun w => w.id.toNat) :=
    (keptScreens_marks old [] wanted).trans (marks_eq (fun n _ => by simp) _)
  have hall : (∀ p ∈ keptScreens old [] wanted, fits width height p.1) ↔ ∀ w ∈ wanted, fits width height w := by
    rw [← List.forall_mem_map (f := Prod.fst) (P := fun w => fits width height w), hfst]
  have hlength : (keptScreens old [] wanted).length = wanted.length := by rw [← List.length_map (f := Prod.fst), hfst]
  unfold requestedLayout
  by_cases hcount : 1 ≤ wanted.length ∧ wanted.length ≤ 255
  · have hcond : (wanted.isEmpty || decide (wanted.length > 255)) = false := by
      rw [Bool.or_eq_false_iff, decide_eq_false_iff_not, List.isEmpty_eq_false_iff]
      exact ⟨List.ne_nil_of_length_pos hcount.1, by omega⟩
    rw [if_neg (by rw [hcond]; simp)]
    rw [layoutLoop_eq hkept width height hkept (by rw [hids]; exact hmarks) (starts_zero _) (by rw [hlength]; simp; omega), hids, hfst]
    simp only [hall, Valid, hcount, true_and, given]
  · have hcond : (wanted.isEmpty || decide (wanted.length > 255)) = true := by
      rw [Bool.or_eq_true, decide_eq_true_iff, List.isEmpty_iff_length_eq_zero]
      omega
    rw [if_pos hcond, if_neg fun hvalid => hcount hvalid.1]

theorem toNat_add_wide (a b : UInt16) : (a.toUInt32 + b.toUInt32).toNat = a.toNat + b.toNat := by
  have ha := a.toNat_lt
  have hb := b.toNat_lt
  rw [UInt32.toNat_add, UInt16.toNat_toUInt32, UInt16.toNat_toUInt32]
  exact Nat.mod_eq_of_lt (by omega)

theorem fits_iff {width height : UInt16} {w : Screen} :
    fits width height w ↔ 0 < w.width.toNat ∧ 0 < w.height.toNat ∧ w.x.toNat + w.width.toNat ≤ width.toNat ∧
      w.y.toNat + w.height.toNat ≤ height.toNat := by
  unfold fits
  rw [UInt16.lt_iff_toNat_lt, UInt16.lt_iff_toNat_lt, UInt32.le_iff_toNat_le, UInt32.le_iff_toNat_le, toNat_add_wide, toNat_add_wide]
  rfl

/-! ## C does the same -/

def wire (s : Screen) : ExtDesktopScreen :=
  ⟨o.swap32 s.id, o.swap16 s.x, o.swap16 s.y, o.swap16 s.width, o.swap16 s.height, o.swap32 s.flags⟩

/-- A screen as five ints. -/
def flatOf (w : Screen) : Flat :=
  ⟨w.id.toInt32, w.x.toUInt32.toInt32, w.y.toUInt32.toInt32, w.width.toUInt32.toInt32, w.height.toUInt32.toInt32⟩

theorem serverScreen_wire (old : List Screen) (id : UInt32) :
    serverScreen o (old.map (wire o)) id = (old.find? (·.id == id)).map (wire o) := by
  rw [serverScreen, List.find?_map]
  have hfun : (fun s : ExtDesktopScreen => o.swap32 s.id == id) ∘ wire o = fun s => s.id == id := by
    funext s
    show (o.swap32 (o.swap32 s.id) == id) = _
    rw [o.swap32_swap32]
  rw [hfun]

theorem sent_flatOf (w : Screen) (id flags : UInt32) : sent o (flatOf w) id flags = wire o { w with id := id, flags := flags } := by
  simp [sent, flatOf, wire]

theorem toInt_wide (v : UInt16) : v.toUInt32.toInt32.toInt = v.toNat := by
  have hv := v.toNat_lt
  have hnat : v.toUInt32.toNat = v.toNat := UInt16.toNat_toUInt32 v
  show v.toUInt32.toBitVec.toInt = _
  rw [BitVec.toInt_eq_toNat_of_lt (show 2 * v.toUInt32.toNat < 2 ^ 32 by omega)]
  exact congrArg _ hnat

theorem outside_flatOf (width height : UInt16) (w : Screen) :
    outside width.toUInt32.toInt32 height.toUInt32.toInt32 (flatOf w) ↔ ¬fits width height w := by
  have hbounds := fun v : UInt16 => v.toNat_lt
  have hsub : ∀ a b : UInt16, (a.toUInt32.toInt32 - b.toUInt32.toInt32).toInt = (a.toNat : Int) - b.toNat := by
    intro a b
    have ha := hbounds a
    have hb := hbounds b
    rw [Int32.toInt_sub, toInt_wide, toInt_wide]
    exact Int.bmod_eq_of_le (by omega) (by omega)
  have hzero : (0 : Int32).toInt = 0 := rfl
  rw [fits_iff]
  unfold outside flatOf
  simp only [Int32.lt_iff_toInt_lt, Int32.le_iff_toInt_le, toInt_wide, hsub, hzero]
  omega

/-- A wanted screen and what it keeps, as the C function has them. -/
def flatMark (p : Screen × Option Screen) : Flat × Bool := (flatOf p.1, p.2.isSome)

theorem flatOf_id (w : Screen) : (flatOf w).id.toUInt32 = w.id := by simp [flatOf]

theorem any_flatMark (ps : List (Screen × Option Screen)) (id : UInt32) :
    ((ps.map flatMark).any fun p => p.2 && p.1.id.toUInt32 == id) = ps.any fun p => p.2.isSome && p.1.id == id := by
  rw [List.any_map]
  refine congrArg (List.any ps) (funext fun p => ?_)
  show (p.2.isSome && (flatOf p.1).id.toUInt32 == id) = _
  rw [flatOf_id]

theorem keptFlags_eq (old : List Screen) (seen : List (Screen × Option Screen)) (ws : List Screen) :
    keptFlags o (old.map (wire o)) (seen.map flatMark) (ws.map flatOf) = (keptScreens old seen ws).map flatMark := by
  induction ws generalizing seen with
  | nil => rfl
  | cons w ws ih =>
    rw [List.map_cons, keptFlags, keptScreens, ← ih, flatOf_id, any_flatMark, serverScreen_wire, Option.isSome_map, List.map_append]
    cases seen.any fun p => p.2.isSome && p.1.id == w.id with
    | true => rfl
    | false => rfl

/-- The two loops go through the screens in step. -/
theorem buildLoop_eq {old : List Screen} (all : List (Screen × Option Screen)) (width height : UInt16)
    {rest : List (Screen × Option Screen)} (hrest : ∀ p ∈ rest, Kept old p) (next : UInt32) :
    buildLoop o (old.map (wire o)) (all.map flatMark) width.toUInt32.toInt32 height.toUInt32.toInt32 next (rest.map flatMark) =
      (layoutLoop old all width height next rest).map (Option.map (List.map (wire o))) := by
  have hmap : ∀ (r : Option (Option (List Screen))) (s : Screen),
      (r.map (Option.map (List.map (wire o)))).map (Option.map (wire o s :: ·)) =
        (r.map (Option.map (s :: ·))).map (Option.map (List.map (wire o))) := by
    rintro (_ | _ | l) s <;> rfl
  induction rest generalizing next with
  | nil => rfl
  | cons p rest ih =>
    obtain ⟨w, k⟩ := p
    have ih := ih fun p hp => hrest p (.tail _ hp)
    rw [List.map_cons]
    unfold buildLoop layoutLoop
    simp only [flatMark, outside_flatOf]
    by_cases hfits : fits width height w
    · rw [if_neg (not_not_intro hfits), if_neg (not_not_intro hfits)]
      cases k with
      | some h =>
        have hfind : old.find? (·.id == w.id) = some h := by
          rcases hrest _ List.mem_cons_self with hnone | hsome
          · cases hnone
          · exact hsome.symm
        have hid : h.id = w.id := by simpa using List.find?_some hfind
        have hflags : o.swap32 (wire o h).flags = h.flags := o.swap32_swap32 h.flags
        refine (if_pos rfl).trans ?_
        rw [flatOf_id, serverScreen_wire, hfind, Option.map_some, Option.bind_eq_bind, Option.bind_some,
          hflags, sent_flatOf]
        dsimp only
        rw [ih next, hmap, hid]
      | none =>
        have hused : (fun id => (serverScreen o (old.map (wire o)) id).isSome || (all.map flatMark).any fun p => p.2 && p.1.id.toUInt32 == id) =
            fun id => old.any (·.id == id) || all.any fun p => p.2.isSome && p.1.id == id := by
          funext id
          rw [serverScreen_wire, any_flatMark, Option.isSome_map, List.isSome_find?]
        refine (if_neg Bool.false_ne_true).trans ?_
        rw [hused]
        dsimp only
        cases hfree : firstFree (fun id => old.any (·.id == id) || all.any fun p => p.2.isSome && p.1.id == id) (2 ^ 32) next with
        | none => rfl
        | some id =>
          rw [Option.bind_eq_bind, Option.bind_some, Option.bind_eq_bind, Option.bind_some, sent_flatOf, ih (id + 1), hmap]
    · rw [if_pos hfits, if_pos hfits]
      rfl

theorem buildLayout_eq (old : List Screen) (width height : UInt16) (wanted : List Screen) :
    buildLayout o (old.map (wire o)) width.toUInt32.toInt32 height.toUInt32.toInt32 (wanted.map flatOf) =
      (requestedLayout old width height wanted).map (Option.map (List.map (wire o))) := by
  have hkept := @keptScreens_kept old [] (fun _ hp => nomatch hp) wanted
  have hflags := keptFlags_eq o old [] wanted
  rw [List.map_nil] at hflags
  have hcond : ((wanted.map flatOf).length ≤ 0 ∨ (wanted.map flatOf).length > 255) ↔
      (wanted.isEmpty || decide (wanted.length > 255)) = true := by
    rw [List.length_map, Bool.or_eq_true, decide_eq_true_iff, List.isEmpty_iff_length_eq_zero, Nat.le_zero]
  unfold buildLayout requestedLayout
  by_cases hcount : (wanted.isEmpty || decide (wanted.length > 255)) = true
  · rw [if_pos (hcond.2 hcount), if_pos hcount]
    rfl
  · rw [if_neg (mt hcond.1 hcount), if_neg hcount, hflags]
    exact buildLoop_eq o _ width height hkept 0

/-! ## SPICE gives the same ids -/

/-- The head at a place, where one was put. -/
def headAt (placed : List (Option Head)) (n : Nat) : Option Head := placed[n]?.join

theorem headAt_place (placed : List (Option Head)) (i : Nat) (head : Head) (n : Nat) :
    headAt (place placed i head) n = if n = i then some head else headAt placed n := by
  have hlen : i < (if placed.length ≤ i then placed ++ List.replicate (i + 1 - placed.length) none else placed).length := by
    split
    · rw [List.length_append, List.length_replicate]
      omega
    · omega
  unfold headAt place
  by_cases hn : n = i
  · subst hn
    rw [if_pos rfl, List.getElem?_set_self hlen]
    rfl
  · rw [if_neg hn, List.getElem?_set_ne (Ne.symm hn)]
    split
    · rw [List.getElem?_append]
      split
      · rfl
      · next hle =>
        rw [List.getElem?_eq_none (Nat.le_of_not_lt hle), List.getElem?_replicate]
        split <;> rfl
    · rfl

theorem mem_map_toNat {ids : List UInt32} {id : UInt32} : id.toNat ∈ ids.map UInt32.toNat ↔ ids.contains id = true := by
  rw [List.contains_iff_mem, List.mem_map]
  exact ⟨fun ⟨a, ha, heq⟩ => UInt32.toNat_inj.1 heq ▸ ha, fun h => ⟨id, h, rfl⟩⟩

/-- One screen's search, which starts from zero every time. -/
theorem headId_eq {old known taken : List UInt32} (hknown : ∀ id, known.contains id = true → old.contains id = true) {seen : List Nat}
    (hmatched : Matched (old.map UInt32.toNat) seen (taken.map UInt32.toNat)) (hlen : old.length + taken.length < 2 ^ 32) (w : UInt32) :
    headId old known taken w = some (UInt32.ofNat (pick (old.map UInt32.toNat) seen (taken.map UInt32.toNat) w.toNat)) ∧
      pick (old.map UInt32.toNat) seen (taken.map UInt32.toNat) w.toNat < 2 ^ 32 := by
  have hcond : (old.contains w && !taken.contains w) = true ↔ w.toNat ∈ old.map UInt32.toNat ∧ w.toNat ∉ seen := by
    rw [Bool.and_eq_true, Bool.not_eq_true', ← Bool.not_eq_true, ← mem_map_toNat, ← mem_map_toNat]
    exact and_congr_right fun hmem => not_congr (hmatched _ hmem)
  unfold headId pick
  by_cases hkept : w.toNat ∈ old.map UInt32.toNat ∧ w.toNat ∉ seen
  · rw [if_pos (hcond.2 hkept), if_pos hkept, UInt32.ofNat_toNat]
    exact ⟨rfl, w.toNat_lt⟩
  · rw [if_neg (mt hcond.1 hkept), if_neg hkept]
    have hle := lowest_le_length (old.map UInt32.toNat ++ taken.map UInt32.toNat)
    rw [List.length_append, List.length_map, List.length_map] at hle
    have hlt : lowest (old.map UInt32.toNat ++ taken.map UInt32.toNat) < 2 ^ 32 := by omega
    have hused : ∀ n : UInt32, (old.contains n || known.contains n || taken.contains n) = true ↔
        n.toNat ∈ old.map UInt32.toNat ++ taken.map UInt32.toNat := by
      intro n
      rw [List.mem_append, mem_map_toNat, mem_map_toNat, Bool.or_eq_true, Bool.or_eq_true, or_iff_left_of_imp (hknown n)]
    refine ⟨firstFree_eq hlt ?_ (Nat.zero_le _) (Nat.lt_of_le_of_lt (Nat.sub_le _ _) hlt) fun m _ hm => ?_, hlt⟩
    · rw [← Bool.not_eq_true, hused, toNat_ofNat hlt]
      exact lowest_notMem _
    · rw [hused, toNat_ofNat (Nat.lt_trans hm hlt)]
      exact mem_of_lt_lowest hm

theorem headsLoop_eq {old known : List UInt32} (hknown : ∀ id, known.contains id = true → old.contains id = true)
    {rest : List (UInt32 × Head)} {seen : List Nat} {taken : List UInt32}
    (hmatched : Matched (old.map UInt32.toNat) seen (taken.map UInt32.toNat)) (hnodup : (taken.map UInt32.toNat).Nodup)
    (hlen : old.length + taken.length + rest.length < 2 ^ 32) (placed : List (Option Head)) :
    ∃ placed', headsLoop old known 0 placed taken rest = some placed' ∧
      (∀ p ∈ (assign (old.map UInt32.toNat) seen (taken.map UInt32.toNat) (rest.map fun p => p.1.toNat)).zip (rest.map Prod.snd),
        headAt placed' p.1 = some p.2) ∧
      ∀ n ∉ assign (old.map UInt32.toNat) seen (taken.map UInt32.toNat) (rest.map fun p => p.1.toNat),
        headAt placed' n = headAt placed n := by
  induction rest generalizing seen taken placed with
  | nil => exact ⟨placed, rfl, by simp [assign], fun _ _ => rfl⟩
  | cons p rest ih =>
    obtain ⟨w, head⟩ := p
    rw [List.length_cons] at hlen
    obtain ⟨hid, hlt⟩ := headId_eq hknown hmatched (by omega) w
    have hnat := toNat_ofNat hlt
    have htaken : (taken ++ [UInt32.ofNat (pick (old.map UInt32.toNat) seen (taken.map UInt32.toNat) w.toNat)]).map UInt32.toNat =
        taken.map UInt32.toNat ++ [pick (old.map UInt32.toNat) seen (taken.map UInt32.toNat) w.toNat] := by
      rw [List.map_append, List.map_singleton, hnat]
    have hstep := hmatched.step w.toNat
    have hnodup' := nodup_assign hmatched hnodup (w.toNat :: rest.map fun p => p.1.toNat)
    rw [assign, List.append_cons] at hnodup'
    rw [← htaken] at hstep hnodup'
    obtain ⟨placed', hloop, hput, hkeep⟩ := ih hstep (List.nodup_append.1 hnodup').1
      (by rw [List.length_append, List.length_singleton]; omega)
      (place placed (pick (old.map UInt32.toNat) seen (taken.map UInt32.toNat) w.toNat) head)
    rw [htaken] at hnodup' hput hkeep
    have hfresh := (List.nodup_append.1 hnodup').2.2
    refine ⟨placed', ?_, ?_, ?_⟩
    · rw [headsLoop, hid, Option.bind_eq_bind, Option.bind_some, if_neg (by simp), hnat, hloop]
    · rw [List.map_cons, assign, List.map_cons, List.zip_cons_cons, List.forall_mem_cons]
      refine ⟨?_, hput⟩
      rw [hkeep _ fun hmem => hfresh _ (List.mem_append_right _ (List.mem_singleton.2 rfl)) _ hmem rfl, headAt_place, if_pos rfl]
    · intro n hn
      rw [List.map_cons, assign, List.mem_cons, not_or] at hn
      rw [hkeep n hn.2, headAt_place, if_neg hn.1]

/-! ## They agree -/

/-- Where a screen is and how large. -/
def Screen.geometry (s : Screen) : UInt16 × UInt16 × UInt16 × UInt16 := (s.x, s.y, s.width, s.height)

/-- A wanted screen as SPICE takes it. -/
def headOf (s : Screen) : Head := ⟨s.x.toUInt32.toInt32, s.y.toUInt32.toInt32, s.width.toUInt32, s.height.toUInt32⟩

/-- What a layout is of the screens that are wanted and those there are. -/
structure Answers (old wanted layout : List Screen) : Prop where
  geometry : layout.map Screen.geometry = wanted.map Screen.geometry
  nodup : (layout.map Screen.id).Nodup
  /-- The first mention of a screen there is keeps its id and its flags. -/
  kept : ∀ (i : Nat) (w s h : Screen), wanted[i]? = some w → layout[i]? = some s → h ∈ old → h.id = w.id →
    w.id ∉ (wanted.take i).map Screen.id → s.id = w.id ∧ s.flags = h.flags
  /-- Any other is new: it has no flags, and the lowest id of those that no screen there is has and none before it got. -/
  new : ∀ (i : Nat) (w s : Screen), wanted[i]? = some w → layout[i]? = some s →
    (w.id ∉ old.map Screen.id ∨ w.id ∈ (wanted.take i).map Screen.id) →
    s.flags = 0 ∧ s.id ∉ old.map Screen.id ++ (layout.take i).map Screen.id ∧
      ∀ id < s.id, id ∈ old.map Screen.id ++ (layout.take i).map Screen.id

section
variable {old wanted : List Screen}

theorem length_given (old wanted : List Screen) : (given old wanted).length = wanted.length := by
  rw [given, length_assign, List.length_map]

theorem given_getElem? (old wanted : List Screen) (i : Nat) :
    (given old wanted)[i]? =
      wanted[i]?.map fun w => pick (oldIds old) ((wanted.take i).map fun w => w.id.toNat) ((given old wanted).take i) w.id.toNat := by
  rw [given, assign_getElem?, List.getElem?_map, Option.map_map, List.map_take]
  rfl

theorem given_lt (hlen : old.length + wanted.length < 2 ^ 32) : ∀ n ∈ given old wanted, n < 2 ^ 32 := by
  intro n hn
  obtain ⟨i, hi, rfl⟩ := List.mem_iff_getElem.1 hn
  have hget := given_getElem? old wanted i
  rw [List.getElem?_eq_getElem hi] at hget
  obtain ⟨w, hw, heq⟩ := Option.map_eq_some_iff.1 hget.symm
  rw [← heq]
  by_cases hkept : w.id.toNat ∈ oldIds old ∧ w.id.toNat ∉ (wanted.take i).map fun w => w.id.toNat
  · rw [pick, if_pos hkept]
    exact w.id.toNat_lt
  · have hle := @pick_le _ _ ((given old wanted).take i) _ hkept
    rw [List.length_take, oldIds, List.length_map] at hle
    rw [length_given] at hi
    have htake := Nat.min_le_left i (given old wanted).length
    exact Nat.lt_of_le_of_lt hle (by omega)

theorem laidOut_map {α : Type} (f : UInt32 → α) {ids : List Nat} (hlen : ids.length = wanted.length) :
    (laidOut old wanted ids).map (fun s => f s.id) = ids.map fun n => f (UInt32.ofNat n) := by
  have hsnd : (wanted.zip ids).map Prod.snd = ids := List.map_snd_zip (Nat.le_of_eq hlen)
  have hmap := congrArg (List.map fun n => f (UInt32.ofNat n)) hsnd
  rw [List.map_map] at hmap
  rw [laidOut, List.map_map]
  exact hmap

theorem laidOut_ids (hlen : old.length + wanted.length < 2 ^ 32) :
    (laidOut old wanted (given old wanted)).map (fun s => s.id.toNat) = given old wanted := by
  rw [laidOut_map UInt32.toNat (length_given old wanted)]
  exact (List.map_congr_left fun n hn => toNat_ofNat (given_lt hlen n hn)).trans (List.map_id _)

theorem laidOut_getElem? {i : Nat} {w s : Screen} (hw : wanted[i]? = some w) (hs : (laidOut old wanted (given old wanted))[i]? = some s) :
    s.id = UInt32.ofNat (pick (oldIds old) ((wanted.take i).map fun w => w.id.toNat) ((given old wanted).take i) w.id.toNat) ∧
      s.flags = flagsAt old s.id := by
  rw [laidOut, List.getElem?_map] at hs
  obtain ⟨p, hp, rfl⟩ := Option.map_eq_some_iff.1 hs
  obtain ⟨hp1, hp2⟩ := List.getElem?_zip_eq_some.1 hp
  rw [given_getElem?, hw] at hp2
  rw [← Option.some.inj hp2]
  exact ⟨rfl, rfl⟩

theorem flagsAt_eq (hold : (old.map Screen.id).Nodup) {h : Screen} (hh : h ∈ old) : flagsAt old h.id = h.flags := by
  obtain ⟨h', hfind⟩ : ∃ h', old.find? (·.id == h.id) = some h' :=
    Option.isSome_iff_exists.1 (List.find?_isSome.2 ⟨h, hh, by simp⟩)
  have hid : h'.id = h.id := by simpa using List.find?_some hfind
  rw [flagsAt, hfind, List.inj_on_of_nodup_map hold (List.mem_of_find?_eq_some hfind) hh hid]
  rfl

theorem flagsAt_new {id : UInt32} (h : id.toNat ∉ oldIds old) : flagsAt old id = 0 := by
  rw [flagsAt, List.find?_eq_none.2]
  · rfl
  · intro s hs heq
    exact h (List.mem_map.2 ⟨s, hs, by rw [eq_of_beq heq]⟩)

theorem mem_ids {l : List Screen} {id : UInt32} : id.toNat ∈ l.map (fun s => s.id.toNat) ↔ id ∈ l.map Screen.id := by
  rw [List.mem_map, List.mem_map]
  exact ⟨fun ⟨s, hs, heq⟩ => ⟨s, hs, UInt32.toNat_inj.1 heq⟩, fun ⟨s, hs, heq⟩ => ⟨s, hs, congrArg _ heq⟩⟩

theorem answers (hold : (old.map Screen.id).Nodup) (hlen : old.length + wanted.length < 2 ^ 32) :
    Answers old wanted (laidOut old wanted (given old wanted)) := by
  have hids := laidOut_ids hlen
  have hfst : (wanted.zip (given old wanted)).map Prod.fst = wanted := List.map_fst_zip (Nat.le_of_eq (length_given old wanted).symm)
  constructor
  · calc
      (laidOut old wanted (given old wanted)).map Screen.geometry = ((wanted.zip (given old wanted)).map Prod.fst).map Screen.geometry := by
        rw [laidOut, List.map_map, List.map_map]
        rfl
      _ = wanted.map Screen.geometry := by rw [hfst]
  · have hnodup : ((laidOut old wanted (given old wanted)).map fun s => s.id.toNat).Nodup := by
      rw [hids]
      exact nodup_assign (matched_nil _) List.nodup_nil _
    refine List.Nodup.of_map UInt32.toNat ?_
    rw [List.map_map]
    exact hnodup
  · intro i w s h hw hs hh hid hfirst
    obtain ⟨hsid, hsflags⟩ := laidOut_getElem? hw hs
    have hkept : w.id.toNat ∈ oldIds old ∧ w.id.toNat ∉ (wanted.take i).map fun w => w.id.toNat :=
      ⟨List.mem_map.2 ⟨h, hh, congrArg _ hid⟩, mt mem_ids.1 hfirst⟩
    rw [pick, if_pos hkept, UInt32.ofNat_toNat] at hsid
    rw [hsflags, hsid, ← hid]
    exact ⟨rfl, flagsAt_eq hold hh⟩
  · intro i w s hw hs hnew
    obtain ⟨hsid, hsflags⟩ := laidOut_getElem? hw hs
    have hnot : ¬(w.id.toNat ∈ oldIds old ∧ w.id.toNat ∉ (wanted.take i).map fun w => w.id.toNat) := by
      rintro ⟨hmem, hfirst⟩
      exact hnew.elim (fun h => h (mem_ids.1 hmem)) fun h => hfirst (mem_ids.2 h)
    have htake : (given old wanted).take i = ((laidOut old wanted (given old wanted)).take i).map fun s => s.id.toNat := by
      rw [List.map_take, hids]
    have hle := lowest_le_length (oldIds old ++ (given old wanted).take i)
    rw [List.length_append, oldIds, List.length_map, List.length_take, length_given] at hle
    have hlt : lowest (oldIds old ++ (given old wanted).take i) < 2 ^ 32 := by
      have hmin := Nat.min_le_right i wanted.length
      exact Nat.lt_of_le_of_lt hle (by omega)
    rw [pick, if_neg hnot] at hsid
    have hnat : s.id.toNat = lowest (oldIds old ++ (given old wanted).take i) := by rw [hsid, toNat_ofNat hlt]
    have hmem : ∀ id : UInt32, id.toNat ∈ oldIds old ++ (given old wanted).take i ↔
        id ∈ old.map Screen.id ++ ((laidOut old wanted (given old wanted)).take i).map Screen.id := by
      intro id
      rw [List.mem_append, List.mem_append, htake, mem_ids]
      exact or_congr_left mem_ids
    refine ⟨?_, ?_, fun id hid => ?_⟩
    · rw [hsflags]
      exact flagsAt_new (hnat ▸ lowest_notMem_old _ _)
    · rw [← hmem, hnat]
      exact lowest_notMem _
    · rw [← hmem]
      exact mem_of_lt_lowest (hnat ▸ UInt32.lt_iff_toNat_lt.1 hid)

end

theorem headsFor_eq {old wanted : List Screen} (hlen : old.length + wanted.length < 2 ^ 32) :
    ∃ heads, headsFor (wanted.map fun w => (w.id, headOf w)) (old.map Screen.id) 0 = some heads ∧
      ∀ s ∈ laidOut old wanted (given old wanted), heads[s.id.toNat]? = some (headOf s) := by
  have hknown : ∀ id : UInt32, (((wanted.map fun w => (w.id, headOf w)).map Prod.fst).filter ((old.map Screen.id).contains ·)).contains id = true →
      (old.map Screen.id).contains id = true := by
    intro id hid
    exact (List.mem_filter.1 (List.contains_iff_mem.1 hid)).2
  obtain ⟨placed, hloop, hput, -⟩ := @headsLoop_eq _ _ hknown (wanted.map fun w => (w.id, headOf w)) [] [] (matched_nil _) List.nodup_nil
    (by simpa using hlen) []
  have hgiven : assign ((old.map Screen.id).map UInt32.toNat) [] [] ((wanted.map fun w => (w.id, headOf w)).map fun p => p.1.toNat) =
      given old wanted := by
    rw [List.map_map, List.map_map]
    rfl
  have hheads : (wanted.map fun w => (w.id, headOf w)).map Prod.snd = wanted.map headOf := by
    rw [List.map_map]
    rfl
  rw [List.map_nil, hgiven, hheads] at hput
  refine ⟨placed.map (·.getD ⟨0, 0, 0, 0⟩), ?_, fun s hs => ?_⟩
  · rw [headsFor, hloop]
    rfl
  · obtain ⟨⟨w, n⟩, hp, rfl⟩ := List.mem_map.1 hs
    have hn : n ∈ given old wanted := (List.of_mem_zip hp).2
    have hmem : (n, headOf w) ∈ (given old wanted).zip (wanted.map headOf) := by
      obtain ⟨i, hi⟩ := List.mem_iff_getElem?.1 hp
      obtain ⟨hw, hn'⟩ := List.getElem?_zip_eq_some.1 hi
      refine List.mem_iff_getElem?.2 ⟨i, List.getElem?_zip_eq_some.2 ⟨hn', ?_⟩⟩
      rw [List.getElem?_map, hw]
      rfl
    have hat := hput _ hmem
    rw [headAt, Option.join_eq_some_iff] at hat
    show (placed.map _)[(UInt32.ofNat n).toNat]? = some (headOf w)
    rw [toNat_ofNat (given_lt hlen n hn), List.getElem?_map, hat]
    rfl

/-- A layout is asked for just when what is wanted is one of the desktop, and it answers what is wanted. The C function asks
for the same, and SPICE puts each screen at the head its id names. -/
theorem layouts_agree {old : List Screen} (hold : (old.map Screen.id).Nodup) (hlen : old.length + 255 < 2 ^ 32) (width height : UInt16)
    (wanted : List Screen) :
    ∃ r, requestedLayout old width height wanted = some r ∧
      (r.isSome ↔ (1 ≤ wanted.length ∧ wanted.length ≤ 255) ∧ ∀ w ∈ wanted, 0 < w.width.toNat ∧ 0 < w.height.toNat ∧
        w.x.toNat + w.width.toNat ≤ width.toNat ∧ w.y.toNat + w.height.toNat ≤ height.toNat) ∧
      (∀ layout, r = some layout → Answers old wanted layout ∧
        ∃ heads, headsFor (wanted.map fun w => (w.id, headOf w)) (old.map Screen.id) 0 = some heads ∧
          ∀ s ∈ layout, heads[s.id.toNat]? = some (headOf s)) ∧
      buildLayout o (old.map (wire o)) width.toUInt32.toInt32 height.toUInt32.toInt32 (wanted.map flatOf) =
        some (r.map (List.map (wire o))) := by
  refine ⟨_, requestedLayout_eq hlen width height wanted, ?_, ?_, ?_⟩
  · simp only [← fits_iff]
    show _ ↔ Valid width height wanted
    split
    · next h => exact iff_of_true rfl h
    · next h => exact iff_of_false (by simp) h
  · intro layout hlayout
    split at hlayout
    case isFalse => cases hlayout
    case isTrue hvalid =>
      obtain rfl := Option.some.inj hlayout
      have hcount := hvalid.1.2
      exact ⟨answers hold (by omega), headsFor_eq (by omega)⟩
  · rw [buildLayout_eq, requestedLayout_eq hlen]
    rfl

/-- Two screens there are, the second kept and moved, and a third added. -/
theorem layouts_agree_added :
    ∃ r, requestedLayout [⟨1, 0, 0, 1280, 800, 5⟩, ⟨2, 1280, 0, 1280, 800, 0⟩] 2560 800 [⟨2, 0, 0, 1280, 800, 0⟩, ⟨2, 1280, 0, 1280, 800, 0⟩] =
      some r ∧ (r.isSome ↔ (1 ≤ 2 ∧ 2 ≤ 255) ∧ ∀ w ∈ [(⟨2, 0, 0, 1280, 800, 0⟩ : Screen), ⟨2, 1280, 0, 1280, 800, 0⟩],
        0 < w.width.toNat ∧ 0 < w.height.toNat ∧ w.x.toNat + w.width.toNat ≤ (2560 : UInt16).toNat ∧
          w.y.toNat + w.height.toNat ≤ (800 : UInt16).toNat) := by
  obtain ⟨r, hr, hsome, -⟩ := layouts_agree ⟨id, id, fun _ => rfl⟩
    (show ([⟨1, 0, 0, 1280, 800, 5⟩, ⟨2, 1280, 0, 1280, 800, 0⟩].map Screen.id).Nodup by decide) (by decide) 2560 800
    [⟨2, 0, 0, 1280, 800, 0⟩, ⟨2, 1280, 0, 1280, 800, 0⟩]
  exact ⟨r, hr, hsome⟩

end Vento.Rfb.Layout
