import Vento.Linux.KnownHosts
/-!
# A pin changes by the user's word

The calls made on the known hosts, in any order, over any file: an identity arrives and is
decided on, the user answers a question about one, or has a server forgotten.

`pins_by_word` is about every such sequence. A blank address is apart from it: it has the empty
key, which no line of the file can hold, so what is filed under it is not read back
(`blank_forgotten`); the clients refuse one before they connect.
-/

namespace Vento.Linux.KnownHosts

open Vento.Lib Vento.Lib.Str Vento.Api Vento.Api.Trust

inductive Call where
  | decide (pinned : Pinned) (fingerprint : Str)
  | answered (pinned : Pinned) (fingerprint : Str) (accept remember : Bool)
  | forget (address : Str)
deriving DecidableEq, Repr

/-- What a call does to the file, which is at `path`. -/
def step (u : Unicode) (path : Str) (file : File) : Call → File
  | .decide pinned fingerprint => (Trust.decide u store pinned fingerprint file).2
  | .answered pinned fingerprint accept remember => (Trust.answered u store pinned fingerprint accept remember file).2
  | .forget address => (forgetIn u path address file).1

/-- The file after some calls. -/
def after (u : Unicode) (path : Str) (file : File) (calls : List Call) : File := calls.foldl (step u path) file

/-- The call is the user's word on the key: an answer that is to be remembered, or to forget it. -/
def Call.Tells (u : Unicode) (k : Str) : Call → Prop
  | .answered pinned _ accept remember => (accept = true ∧ remember = true) ∧ key u pinned.key = k
  | .forget address => sameServer u k address = true
  | .decide _ _ => False

instance (u : Unicode) (k : Str) : DecidablePred (Call.Tells u k) := fun c => by
  unfold Call.Tells
  split <;> infer_instance

/-- The first sight of a key that has no entry, at a backend that does not ask about it. -/
def Call.Sights (u : Unicode) (file : File) (k : Str) : Call → Prop
  | .decide pinned fingerprint =>
    key u pinned.key = k ∧ pinned.firstSightSilent = true ∧ pinFor file.pins k = none ∧
      (Trust.decide u store pinned fingerprint file).1 = .firstSight
  | _ => False

variable (u : Unicode) (path : Str)

theorem pinFor_filter (pins : List (Str × Str)) (f : Str → Bool) (k : Str) :
    pinFor (pins.filter fun p => !f p.1) k = if f k then none else pinFor pins k := by
  rw [pinFor_eq, List.filter_filter]
  split
  · next h =>
    have hnil : pins.filter (fun p => decide (p.1 = k) && !f p.1) = [] := by
      rw [List.filter_eq_nil_iff]
      rintro p -
      simp only [Bool.and_eq_true, decide_eq_true_eq, Bool.not_eq_true', not_and, Bool.not_eq_false]
      rintro rfl
      exact h
    rw [hnil]
    rfl
  · next h =>
    rw [pinFor_eq]
    congr 2
    apply List.filter_congr
    rintro p -
    by_cases hp : p.1 = k
    · simp [hp, h]
    · simp [hp]

/-- What a call does to what a key is pinned to, if it is not the user's word on it and no first sight. -/
theorem pinFor_step (file : File) (c : Call) (k : Str) (ht : ¬c.Tells u k) (hs : ¬c.Sights u file k) :
    pinFor (step u path file c).pins k = pinFor file.pins k := by
  cases c with
  | decide pinned fingerprint =>
    rcases decide_cases u store pinned fingerprint file with ⟨p, -, -, h⟩ | ⟨hnone, hsilent, h⟩ | ⟨i, o, h⟩
    · rw [step, h]
    · rw [step, h]
      refine (File.pinFor_set file (key u pinned.key) fingerprint k).trans (if_neg ?_)
      rintro rfl
      exact hs ⟨rfl, hsilent, hnone, by rw [h]⟩
    · rw [step, h]
  | answered pinned fingerprint accept remember =>
    rw [step, Trust.answered]
    dsimp only
    split
    · next h =>
      refine (File.pinFor_set file (key u pinned.key) fingerprint k).trans (if_neg ?_)
      rintro rfl
      exact ht ⟨h, rfl⟩
    · rfl
  | forget address =>
    rw [step, forgetIn]
    dsimp only
    rw [File.pins_removeWhere, pinFor_filter file.pins (fun key => sameServer u key address),
      if_neg (show ¬sameServer u k address = true from ht)]

/-- What a key is pinned to stays for as long as the user says nothing of it. -/
theorem pinFor_after {file : File} {calls : List Call} {k pin : Str} (hpin : pinFor file.pins k = some pin)
    (h : ∀ c ∈ calls, ¬c.Tells u k) : pinFor (after u path file calls).pins k = some pin := by
  induction calls generalizing file with
  | nil => exact hpin
  | cons c calls ih =>
    rw [List.forall_mem_cons] at h
    refine ih ?_ h.2
    rw [pinFor_step u path file c k h.1, hpin]
    intro hs
    cases c with
    | decide pinned fingerprint => cases hpin.symm.trans hs.2.2.1
    | answered pinned fingerprint accept remember => exact hs
    | forget address => exact hs

/-- After any calls on any file: what a key is pinned to changes by the user's word on it or a first sight
where it has no entry; a match is of the first entry's digits; there is no first sight of a key that has an
entry; and an answer to be remembered is, under a key that is not empty, until the user's next word on it. -/
theorem pins_by_word (file : File) (calls : List Call) :
    (∀ c k, pinFor (step u path (after u path file calls) c).pins k ≠ pinFor (after u path file calls).pins k →
      c.Tells u k ∨ c.Sights u (after u path file calls) k) ∧
    (∀ pinned fingerprint, (Trust.decide u store pinned fingerprint (after u path file calls)).1 = .matched →
      ∃ pin, pinFor (after u path file calls).pins (key u pinned.key) = some pin ∧ canonical pin = canonical fingerprint) ∧
    (∀ pinned fingerprint, pinFor (after u path file calls).pins (key u pinned.key) ≠ none →
      (Trust.decide u store pinned fingerprint (after u path file calls)).1 ≠ .firstSight) ∧
    ∀ pre pinned fingerprint post, calls = pre ++ .answered pinned fingerprint true true :: post →
      key u pinned.key ≠ [] → canonical fingerprint ≠ [] → (∀ c ∈ post, ¬c.Tells u (key u pinned.key)) →
      ∀ pinned' fingerprint', key u pinned'.key = key u pinned.key → canonical fingerprint' = canonical fingerprint →
        (Trust.decide u store pinned' fingerprint' (after u path file calls)).1 = .matched := by
  refine ⟨?_, ?_, ?_, ?_⟩
  · intro c k h
    by_contra hc
    rw [not_or] at hc
    exact h (pinFor_step u path _ c k hc.1 hc.2)
  · intro pinned fingerprint h
    rcases decide_cases u store pinned fingerprint (after u path file calls) with ⟨p, hp, hc, -⟩ | ⟨-, -, h'⟩ | ⟨i, o, h'⟩
    · exact ⟨p, hp, hc⟩
    · rw [h'] at h
      cases h
    · rw [h'] at h
      cases h
  · intro pinned fingerprint hpin
    rcases decide_cases u store pinned fingerprint (after u path file calls) with ⟨p, -, -, h⟩ | ⟨hnone, -, -⟩ | ⟨i, o, h⟩
    · rw [h]
      exact Decision.noConfusion
    · exact absurd hnone hpin
    · rw [h]
      exact Decision.noConfusion
  · rintro pre pinned fingerprint post rfl hkey hdigits hpost pinned' fingerprint' hkey' hdigits'
    have hne : fingerprint ≠ [] := by
      rintro rfl
      exact hdigits rfl
    have hput : pinFor (step u path (after u path file pre) (.answered pinned fingerprint true true)).pins (key u pinned.key) =
        some fingerprint := by
      refine (File.pinFor_set (after u path file pre) (key u pinned.key) fingerprint _).trans ?_
      rw [if_pos rfl, if_pos ⟨hkey, hne⟩]
    have hpin := pinFor_after u path hput hpost
    have hfile : after u path file (pre ++ .answered pinned fingerprint true true :: post) =
        after u path (step u path (after u path file pre) (.answered pinned fingerprint true true)) post := by
      simp [after]
    rw [← hfile] at hpin
    have hv : verdict u (store.pins (after u path file (pre ++ .answered pinned fingerprint true true :: post))) pinned'.key
        fingerprint' = .matched :=
      (verdict_matched_iff u _ _ _).2 ⟨fingerprint, by rw [hkey']; exact hpin, hdigits'.symm⟩
    rw [Trust.decide, hv]

theorem pins_by_word_kept :
    (Trust.decide Unicode.ascii store ⟨" HOST ".toList, true⟩ "66CC".toList
      (after Unicode.ascii [] [] [.answered ⟨"Host".toList, false⟩ "66:cc".toList true true, .forget "other".toList,
        .answered ⟨"host".toList, false⟩ "00:11".toList true false])).1 = .matched :=
  (pins_by_word Unicode.ascii [] [] [.answered ⟨"Host".toList, false⟩ "66:cc".toList true true, .forget "other".toList,
    .answered ⟨"host".toList, false⟩ "00:11".toList true false]).2.2.2 [] ⟨"Host".toList, false⟩ "66:cc".toList _ rfl
    (by decide +kernel) (by decide +kernel) (by decide +kernel) _ _ (by decide +kernel) (by decide +kernel)

/-- A blank address is accepted, to be remembered, and asked about again. -/
theorem blank_forgotten :
    (Trust.decide Unicode.ascii store ⟨" ".toList, false⟩ "66:cc".toList
      (after Unicode.ascii [] [] [.answered ⟨" ".toList, false⟩ "66:cc".toList true true])).1 = .ask .new [] ∧
      canonical "66:cc".toList ≠ [] := by
  decide +kernel

end Vento.Linux.KnownHosts
