import Vento.Linux.KnownHosts
/-!
# What is saved is what is read

The changes made to a store file's lines, in any order, over any bytes. A change leaves alone the
lines that are none of its key's, whatever they are; and the lines a file can come to have are
read back, each as it was written (`table_round_trips`).
-/

namespace Vento.Linux.KnownHosts

open Vento.Lib Vento.Lib.Str

inductive Edit where
  | set (key value : Str)
  | removeWhere (forgets : Str → Bool)

/-- A line can hold what it sets. -/
def Edit.Whole : Edit → Prop
  | .set key value => key ≠ [] ∧ value ≠ []
  | .removeWhere _ => True

/-- The line is none that it is about. -/
def Edit.leaves : Edit → Line → Bool
  | .set key _, .entry k _ => k ≠ key
  | .removeWhere forgets, .entry k _ => !forgets k
  | _, .other _ => true

def Line.isOther : Line → Bool
  | .entry _ _ => false
  | .other _ => true

namespace Table

def edit (t : Table) : Edit → Table
  | .set key value => t.set key value
  | .removeWhere forgets => (t.removeWhere forgets).1

/-! ## What stays -/

theorem retain_true (key value : Str) (t : Table) :
    retain key value true t = (t.filter (Edit.set key value).leaves, true) := by
  induction t with
  | nil => rfl
  | cons line t ih =>
    cases line with
    | entry k v =>
      rw [retain, ih]
      split
      · next hk => rw [if_pos rfl, List.filter_cons_of_neg (by simp [Edit.leaves, hk])]
      · next hk => rw [List.filter_cons_of_pos (by simp [Edit.leaves, hk])]
    | other raw =>
      rw [retain, ih, List.filter_cons_of_pos (by rfl)]

theorem retain_false {key value : Str} {t : Table} (h : ∀ v, .entry key v ∉ t) : retain key value false t = (t, false) := by
  induction t with
  | nil => rfl
  | cons line t ih =>
    have ih := ih fun v hv => h v (List.mem_cons_of_mem _ hv)
    cases line with
    | entry k v =>
      have hk : k ≠ key := by
        rintro rfl
        exact h v List.mem_cons_self
      rw [retain, if_neg hk, ih]
    | other raw => rw [retain, ih]

/-- The first entry is changed in place. -/
theorem retain_append {key value w : Str} {pre post : Table} (h : ∀ v, .entry key v ∉ pre) :
    retain key value false (pre ++ .entry key w :: post) =
      (pre ++ .entry key value :: post.filter (Edit.set key value).leaves, true) := by
  induction pre with
  | nil =>
    rw [List.nil_append, retain, if_pos rfl, if_neg Bool.false_ne_true, retain_true]
    rfl
  | cons line pre ih =>
    have ih := ih fun v hv => h v (List.mem_cons_of_mem _ hv)
    cases line with
    | entry k v =>
      have hk : k ≠ key := by
        rintro rfl
        exact h v List.mem_cons_self
      rw [List.cons_append, retain, if_neg hk, ih]
      rfl
    | other raw =>
      rw [List.cons_append, retain, ih]
      rfl

theorem set_append {key value w : Str} {pre post : Table} (h : ∀ v, .entry key v ∉ pre) :
    set (pre ++ .entry key w :: post) key value = pre ++ .entry key value :: post.filter (Edit.set key value).leaves := by
  unfold set
  rw [retain_append h]
  rfl

theorem set_of_not_mem {key value : Str} {t : Table} (h : ∀ v, .entry key v ∉ t) : t.set key value = t ++ [.entry key value] := by
  unfold set
  rw [retain_false h]
  rfl

/-- An entry is among the lines after those of other keys, or it is not. -/
theorem exists_first (key : Str) (t : Table) :
    (∀ v, .entry key v ∉ t) ∨ ∃ pre w post, t = pre ++ .entry key w :: post ∧ ∀ v, .entry key v ∉ pre := by
  induction t with
  | nil => exact .inl fun v => List.not_mem_nil
  | cons line t ih =>
    by_cases hline : ∃ w, line = .entry key w
    · obtain ⟨w, rfl⟩ := hline
      exact .inr ⟨[], w, t, rfl, fun v => List.not_mem_nil⟩
    · have hne : ∀ v, Line.entry key v ≠ line := fun v hv => hline ⟨v, hv.symm⟩
      rcases ih with h | ⟨pre, w, post, rfl, h⟩
      · exact .inl fun v hv => (List.mem_cons.1 hv).elim (hne v) (h v)
      · exact .inr ⟨line :: pre, w, post, rfl, fun v hv => (List.mem_cons.1 hv).elim (hne v) (h v)⟩

/-- A change leaves every line alone that it is not about. -/
theorem edit_leaves (t : Table) (e : Edit) : (t.edit e).filter e.leaves = t.filter e.leaves := by
  cases e with
  | set key value =>
    have hself : ∀ v, (Edit.set key value).leaves (.entry key v) = false := fun v => by simp [Edit.leaves]
    rcases exists_first key t with h | ⟨pre, w, post, rfl, h⟩
    · rw [edit, set_of_not_mem h, List.filter_append, List.filter_cons_of_neg (by simp [hself])]
      exact List.append_nil _
    · rw [edit, set_append h, List.filter_append, List.filter_append, List.filter_cons_of_neg (by simp [hself]),
        List.filter_cons_of_neg (by simp [hself]), List.filter_filter]
      simp only [Bool.and_self]
  | removeWhere forgets =>
    have hleaves : (t.removeWhere forgets).1 = t.filter (Edit.removeWhere forgets).leaves := by
      refine List.filter_congr fun line _ => ?_
      cases line <;> rfl
    rw [edit, hleaves, List.filter_filter]
    simp only [Bool.and_self]

theorem isOther_edit (t : Table) (e : Edit) : (t.edit e).filter Line.isOther = t.filter Line.isOther := by
  have hsub : ∀ line : Line, (line.isOther && e.leaves line) = line.isOther := by
    intro line
    cases line with
    | entry k v => rfl
    | other raw => cases e <;> rfl
  have h := congrArg (List.filter Line.isOther) (edit_leaves t e)
  simpa only [List.filter_filter, hsub] using h

/-! ## What is read back -/

theorem read_edit {t : Table} (h : ∀ line ∈ t, line.Read) {e : Edit} (he : e.Whole) : ∀ line ∈ t.edit e, line.Read := by
  cases e with
  | set key value =>
    have hnew : (Line.entry key value).Read := he
    rcases exists_first key t with hnone | ⟨pre, w, post, rfl, hnone⟩
    · rw [edit, set_of_not_mem hnone]
      intro line hline
      rcases List.mem_append.1 hline with hline | hline
      · exact h line hline
      · exact List.mem_singleton.1 hline ▸ hnew
    · rw [edit, set_append hnone]
      intro line hline
      rcases List.mem_append.1 hline with hline | hline
      · exact h line (List.mem_append_left _ hline)
      · rcases List.mem_cons.1 hline with rfl | hline
        · exact hnew
        · exact h line (List.mem_append_right _ (List.mem_cons_of_mem _ (List.mem_of_mem_filter hline)))
  | removeWhere forgets => exact fun line hline => h line (List.mem_of_mem_filter hline)

theorem read_edits {t : Table} (h : ∀ line ∈ t, line.Read) {edits : List Edit} (he : ∀ e ∈ edits, e.Whole) :
    ∀ line ∈ edits.foldl edit t, line.Read := by
  induction edits generalizing t with
  | nil => exact h
  | cons e edits ih =>
    rw [List.forall_mem_cons] at he
    exact ih (read_edit h he.1) he.2

/-- A line that was read, or set, is read back as it is. -/
theorem parse_toBytes_of_read {t : Table} (h : ∀ line ∈ t, line.Read) : parse t.toBytes = t := by
  have hline : ∀ line ∈ t, newline ∉ lineBytes line := by
    intro line hmem
    cases line with
    | entry k v => exact newline_not_mem_entry k v
    | other raw => exact (h _ hmem).2
  rw [parse_toBytes hline]
  refine (List.map_congr_left fun line hmem => ?_).trans (List.map_id t)
  cases line with
  | entry k v => exact (parseLine_entry k v).trans (if_pos (h _ hmem))
  | other raw => exact (h _ hmem).1

theorem get_eq (t : Table) (k : Str) : t.get k = ((t.entries.filter (·.1 = k)).head?).map Prod.snd := by
  rw [get, List.head?_filter]

theorem get_set (t : Table) (key value k : Str) : (t.set key value).get k = if k = key then some value else t.get k := by
  rw [get_eq, entries_set]
  split
  · rfl
  · rw [get_eq]

end Table

/-- Over any file and any changes: the lines come back from what is written of them, what is set is read back and
nothing else is changed, a line that a change is not about stays as it was among the others, and every string
survives its escapes. -/
theorem table_round_trips (file : List UInt8) (edits : List Edit) (h : ∀ e ∈ edits, e.Whole) :
    let t := edits.foldl Table.edit (Table.parse file)
    Table.parse t.toBytes = t ∧
      (∀ key value, key ≠ [] → value ≠ [] →
        (Table.parse (t.set key value).toBytes).get key = some value ∧
        ∀ k, k ≠ key → (Table.parse (t.set key value).toBytes).get k = t.get k) ∧
      (∀ e : Edit, (t.edit e).filter e.leaves = t.filter e.leaves) ∧
      (∀ pre key w value post, t = pre ++ .entry key w :: post → (∀ v, .entry key v ∉ pre) →
        t.set key value = pre ++ .entry key value :: post.filter (Edit.set key value).leaves) ∧
      t.filter Line.isOther = (Table.parse file).filter Line.isOther ∧
      ∀ s, unescape (escape s) = some s := by
  intro t
  have hread : ∀ line ∈ t, line.Read := Table.read_edits (read_parse file) h
  refine ⟨Table.parse_toBytes_of_read hread, ?_, Table.edit_leaves t, ?_, ?_, unescape_escape⟩
  · intro key value hk hv
    have hwhole : (Edit.set key value).Whole := ⟨hk, hv⟩
    have hset : ∀ line ∈ t.set key value, line.Read := Table.read_edit hread hwhole
    rw [Table.parse_toBytes_of_read hset]
    refine ⟨(Table.get_set t key value key).trans (if_pos rfl), fun k hne => ?_⟩
    exact (Table.get_set t key value k).trans (if_neg hne)
  · intro pre key w value post heq hnone
    rw [heq]
    exact Table.set_append hnone
  · clear hread
    induction edits using List.reverseRecOn with
    | nil => rfl
    | append_singleton edits e ih =>
      have ih := ih fun e' he' => h e' (List.mem_append_left _ he')
      rw [← ih]
      show ((edits ++ [e]).foldl Table.edit (Table.parse file)).filter _ = _
      rw [List.foldl_append]
      exact Table.isOther_edit _ e

theorem table_round_trips_spaces :
    let t := [Edit.set "#odd".toList "x\ny".toList, .removeWhere (· = "a b".toList)].foldl Table.edit
      (Table.parse (bytes "# c\na\\x20b 1\nnot an entry".toList))
    Table.parse t.toBytes = t ∧ t.get "#odd".toList = some "x\ny".toList ∧ t.filter Line.isOther ≠ [] := by
  have h := table_round_trips (bytes "# c\na\\x20b 1\nnot an entry".toList)
    [Edit.set "#odd".toList "x\ny".toList, .removeWhere (· = "a b".toList)]
    (by simp [Edit.Whole])
  exact ⟨h.1, by decide +kernel, by decide +kernel⟩

end Vento.Linux.KnownHosts
