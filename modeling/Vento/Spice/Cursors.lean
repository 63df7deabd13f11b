import Mathlib.Data.List.AList
import Vento.Lib.Bytes
import Vento.Lib.Recent
import Vento.Lib.Runs
/-!
# The shapes of the cursor channel

`spice/src/cursor.rs`: a shape that is to be kept is kept under its id, and one that is named is drawn from there. There is
room for 64, and the oldest makes room. The reader of the wire type is another crate's: `Protocol` stands for it.

An id that comes again while it is kept is in the order twice, and the second of the two outlives its shape or takes
another's place: `shapes_kept_iff` says that this is all that goes wrong.
-/

namespace Vento.Spice.Cursor

open Vento.Lib

def maxShapes : Nat := 64

def maxSide : Nat := 256

structure CursorHeader where
  uniqueId : UInt64
  cursorType : UInt8
  width : UInt16
  height : UInt16
  hotSpotX : UInt16
  hotSpotY : UInt16
deriving DecidableEq, Repr

/-- `SpiceCursorRef`: no header is a cursor of no kind. -/
structure CursorRef where
  flags : UInt16
  header : Option CursorHeader
  data : List UInt8
deriving DecidableEq, Repr

/-- The protocol's crate: the types of the messages, the sizes of what stands in front of a cursor, the flags and the
reader. `single` is the id that a message of a type that is not handled invalidates on its own. -/
structure Protocol where
  init : UInt16
  set : UInt16
  hide : UInt16
  invalidateAll : UInt16
  initSize : Nat
  setSize : Nat
  fromCache : UInt16
  cacheMe : UInt16
  read : List UInt8 → Option CursorRef
  single : UInt16 → List UInt8 → Option UInt64

structure Shape where
  width : Nat
  height : Nat
  hotX : Int
  hotY : Int
  pixels : List UInt32
deriving DecidableEq, Repr

/-- `R, G, B, A` as a word. -/
def word (r g b a : UInt8) : UInt32 := UInt32.ofNat (fromLeBytes [r, g, b, a])

/-- A cursor's pixels, of the three kinds that are built here. -/
def pixels (header : CursorHeader) (data : List UInt8) : Option (List UInt32) :=
  let width := header.width.toNat
  let height := header.height.toNat
  let count := width * height
  if width > maxSide ∨ height > maxSide then none
  else if count = 0 then none
  else
    match header.cursorType with
    | 0 => if count * 4 ≤ data.length then
        some ((chunks 4 (data.take (count * 4))).map fun px => word (px.getD 2 0) (px.getD 1 0) (px.getD 0 0) (px.getD 3 0))
      else none
    | 5 => if count * 3 ≤ data.length then
        some ((chunks 3 (data.take (count * 3))).map fun px => word (px.getD 2 0) (px.getD 1 0) (px.getD 0 0) 0xff)
      else none
    | 6 => if count * 4 ≤ data.length then
        some ((chunks 4 (data.take (count * 4))).map fun px => word (px.getD 2 0) (px.getD 1 0) (px.getD 0 0) 0xff)
      else none
    | _ => none

def shapeOf (header : CursorHeader) (pixels : List UInt32) : Shape where
  width := header.width.toNat
  height := header.height.toNat
  hotX := header.hotSpotX.toNat
  hotY := header.hotSpotY.toNat
  pixels := pixels

/-- What `HIDE` has the handler draw. -/
def hidden : Shape := ⟨0, 0, 0, 0, []⟩

structure Cursors where
  shapes : AList fun _ : UInt64 => Shape
  order : List UInt64

namespace Cursors

def new : Cursors := ⟨∅, []⟩

/-- The oldest goes when there is no room. -/
def makeRoom (c : Cursors) : Cursors :=
  if maxShapes ≤ c.order.length then
    match c.order with
    | oldest :: order => ⟨c.shapes.erase oldest, order⟩
    | [] => c
  else c

def keep (c : Cursors) (id : UInt64) (shape : Shape) : Cursors :=
  let c := c.makeRoom
  ⟨c.shapes.insert id shape, c.order ++ [id]⟩

variable (p : Protocol)

/-- A cursor, and what the handler is asked to draw. -/
def cursor (c : Cursors) (data : List UInt8) : Cursors × List Shape :=
  match p.read data with
  | some ⟨flags, some header, data⟩ =>
    if flags &&& p.fromCache ≠ 0 then (c, (c.shapes.lookup header.uniqueId).toList)
    else
      match pixels header data with
      | none => (c, [])
      | some pixels =>
        let shape := shapeOf header pixels
        (if flags &&& p.cacheMe ≠ 0 then c.keep header.uniqueId shape else c, [shape])
  | _ => (c, [])

def message (c : Cursors) (type : UInt16) (body : List UInt8) : Cursors × List Shape :=
  if type = p.init ∨ type = p.set then
    let fields := if type = p.init then p.initSize else p.setSize
    if fields ≤ body.length then c.cursor p (body.drop fields) else (c, [])
  else if type = p.hide then (c, [hidden])
  else if type = p.invalidateAll then (new, [])
  else (c, [])

/-- The cache after a message. -/
def step (c : Cursors) (m : UInt16 × List UInt8) : Cursors := (c.message p m.1 m.2).1

end Cursors

/-! ## What the server relies on -/

/-- What a message has to do with what is kept. -/
inductive Said where
  | cached (id : UInt64) (shape : Shape)
  | invalidated (id : UInt64)
  | invalidatedAll
  | other
deriving DecidableEq, Repr

variable (p : Protocol)

def saidOf (data : List UInt8) : Said :=
  match p.read data with
  | some ⟨flags, some header, data⟩ =>
    if flags &&& p.fromCache = 0 ∧ flags &&& p.cacheMe ≠ 0 then
      match pixels header data with
      | some pixels => .cached header.uniqueId (shapeOf header pixels)
      | none => .other
    else .other
  | _ => .other

def said (m : UInt16 × List UInt8) : Said :=
  if m.1 = p.init ∨ m.1 = p.set then
    let fields := if m.1 = p.init then p.initSize else p.setSize
    if fields ≤ m.2.length then saidOf p (m.2.drop fields) else .other
  else if m.1 = p.hide then .other
  else if m.1 = p.invalidateAll then .invalidatedAll
  else (p.single m.1 m.2).elim .other .invalidated

/-- The shapes that were to be kept, each id with its latest one in the order in which these came, and the ids that were
invalidated on their own since. -/
structure History where
  entries : List (UInt64 × Shape)
  voided : List UInt64

namespace History

def add (h : History) : Said → History
  | .cached id shape => ⟨Recent.put h.entries id shape, h.voided.filter (· ≠ id)⟩
  | .invalidated id => { h with voided := id :: h.voided }
  | .invalidatedAll => ⟨[], []⟩
  | .other => h

/-- The shape is the latest of one of the last 64 ids, which was not invalidated since it came. -/
def Promised (h : History) (id : UInt64) (shape : Shape) : Prop :=
  (id, shape) ∈ Recent.latest maxShapes h.entries ∧ id ∉ h.voided

end History

def history (ms : List (UInt16 × List UInt8)) : History := (ms.map (said p)).foldl History.add ⟨[], []⟩

def after (ms : List (UInt16 × List UInt8)) : Cursors := ms.foldl (Cursors.step p) Cursors.new

/-- The order has each id that is kept once, there is no more than there is room for, and what is promised is there. -/
structure Kept (h : History) (c : Cursors) : Prop where
  nodup : c.order.Nodup
  same : ∀ id, id ∈ c.order ↔ id ∈ c.shapes
  size : c.shapes.entries.length ≤ maxShapes
  found : ∀ id shape, h.Promised id shape → c.shapes.lookup id = some shape

/-- What is to be kept is not kept yet, or is the oldest and has to make room. -/
def Fresh (c : Cursors) (m : UInt16 × List UInt8) : Prop :=
  ∀ id shape, said p m = .cached id shape → id ∉ if maxShapes ≤ c.order.length then c.order.tail else c.order

/-! ## What a message does -/

variable {p}

/-- The cache after what a message says. -/
def Said.applied (c : Cursors) : Said → Cursors
  | .cached id shape => c.keep id shape
  | .invalidatedAll => Cursors.new
  | .invalidated _ => c
  | .other => c

theorem cursor_said (c : Cursors) (data : List UInt8) : (c.cursor p data).1 = (saidOf p data).applied c := by
  unfold Cursors.cursor saidOf
  rcases p.read data with _ | ⟨flags, _ | header, data⟩
  · rfl
  · rfl
  · dsimp only
    by_cases hfrom : flags &&& p.fromCache = 0
    · rw [if_neg (not_not.2 hfrom)]
      rcases pixels header data with _ | pixels
      · rw [ite_self]
        rfl
      · by_cases hkeep : flags &&& p.cacheMe = 0
        · rw [if_neg (fun h => h.2 hkeep)]
          exact if_neg (not_not.2 hkeep)
        · rw [if_pos ⟨hfrom, hkeep⟩]
          exact if_pos hkeep
    · rw [if_pos hfrom, if_neg (fun h => hfrom h.1)]
      rfl

theorem step_said (c : Cursors) (m : UInt16 × List UInt8) : c.step p m = (said p m).applied c := by
  unfold Cursors.step Cursors.message said
  split
  · dsimp only
    generalize (if m.1 = p.init then p.initSize else p.setSize) = fields
    split
    · exact cursor_said c _
    · rfl
  · split
    · rfl
    · split
      · rfl
      · cases p.single m.1 m.2 <;> rfl

/-! ## The shapes are those of the order -/

/-- The entries that are held, in the order of their ids. -/
structure Mirrors (held : List (UInt64 × Shape)) (c : Cursors) : Prop where
  order : held.map Prod.fst = c.order
  nodup : c.order.Nodup
  lookup : ∀ id shape, (id, shape) ∈ held ↔ c.shapes.lookup id = some shape

variable {held : List (UInt64 × Shape)} {c : Cursors}

theorem mem_order_of_mem (h : Mirrors held c) {id : UInt64} {shape : Shape} (hm : (id, shape) ∈ held) : id ∈ c.order :=
  h.order ▸ List.mem_map_of_mem (f := Prod.fst) hm

theorem Mirrors.mem_order_iff (h : Mirrors held c) {id : UInt64} : id ∈ c.shapes ↔ id ∈ c.order := by
  rw [← AList.lookup_isSome, Option.isSome_iff_exists, ← h.order, List.mem_map]
  constructor
  · rintro ⟨shape, hs⟩
    exact ⟨(id, shape), (h.lookup id shape).2 hs, rfl⟩
  · rintro ⟨⟨i, shape⟩, hs, rfl⟩
    exact ⟨shape, (h.lookup i shape).1 hs⟩

theorem Mirrors.erase {oldest : UInt64 × Shape} {shapes : AList fun _ : UInt64 => Shape} {order : List UInt64}
    (h : Mirrors (oldest :: held) ⟨shapes, oldest.1 :: order⟩) : Mirrors held ⟨shapes.erase oldest.1, order⟩ := by
  obtain ⟨horder, hnodup, hlookup⟩ := h
  obtain ⟨hnotin, hnodup⟩ := List.nodup_cons.1 hnodup
  have horder : held.map Prod.fst = order := (List.cons.inj horder).2
  refine ⟨horder, hnodup, fun id shape => ?_⟩
  by_cases hid : id = oldest.1
  · subst hid
    rw [AList.lookup_erase]
    constructor
    · intro hm
      have hid := List.mem_map_of_mem (f := Prod.fst) hm
      rw [horder] at hid
      exact absurd hid hnotin
    · intro hm
      cases hm
  · rw [AList.lookup_erase_ne hid, ← hlookup, List.mem_cons]
    constructor
    · exact .inr
    · rintro (rfl | hm)
      · exact absurd rfl hid
      · exact hm

theorem Mirrors.insert (h : Mirrors held c) {id : UInt64} (shape : Shape) (hid : id ∉ c.order) :
    Mirrors (held ++ [(id, shape)]) ⟨c.shapes.insert id shape, c.order ++ [id]⟩ := by
  refine ⟨by rw [List.map_append, h.order]; rfl, ?_, fun i s => ?_⟩
  · exact List.nodup_append.2 ⟨h.nodup, List.nodup_singleton id, fun a ha b hb hab => by
      rw [List.mem_singleton] at hb
      exact hid (hb ▸ hab ▸ ha)⟩
  · rw [List.mem_append, List.mem_singleton]
    by_cases hi : i = id
    · subst hi
      rw [AList.lookup_insert]
      constructor
      · rintro (hm | hm)
        · exact absurd (mem_order_of_mem h hm) hid
        · cases hm
          rfl
      · intro hm
        cases hm
        exact .inr rfl
    · rw [AList.lookup_insert_ne hi, ← h.lookup]
      constructor
      · rintro (hm | hm)
        · exact hm
        · cases hm
          exact absurd rfl hi
      · exact .inl

theorem Mirrors.size (h : Mirrors held c) : c.shapes.entries.length = held.length := by
  have hperm : c.shapes.keys.Perm c.order := by
    refine (List.perm_ext_iff_of_nodup c.shapes.keys_nodup h.nodup).2 fun id => ?_
    rw [← AList.mem_keys, h.mem_order_iff]
  have hlen := hperm.length_eq
  rw [← h.order, List.length_map] at hlen
  exact (List.length_map _).symm.trans hlen

/-! ## Runs -/

/-- What the server may rely on is what is held. -/
def Stands (h : History) (c : Cursors) : Prop := ∃ held, Recent.Holds maxShapes h.entries held ∧ Mirrors held c

theorem Stands.kept {h : History} (hs : Stands h c) : Kept h c := by
  obtain ⟨held, hholds, hm⟩ := hs
  refine ⟨hm.nodup, fun id => hm.mem_order_iff.symm, ?_, ?_⟩
  · obtain ⟨-, -, hle, -⟩ := hholds
    rwa [hm.size]
  · rintro id shape ⟨hmem, -⟩
    rw [Recent.latest_eq hholds] at hmem
    exact (hm.lookup id shape).1 hmem

theorem Stands.cached {h : History} (hs : Stands h c) {id : UInt64} (shape : Shape)
    (hid : id ∉ if maxShapes ≤ c.order.length then c.order.tail else c.order) :
    Stands (h.add (.cached id shape)) (c.keep id shape) := by
  obtain ⟨held, hholds, hm⟩ := hs
  have hlen : held.length = c.order.length := by rw [← hm.order, List.length_map]
  unfold Cursors.keep Cursors.makeRoom
  by_cases hfull : maxShapes ≤ c.order.length
  · rw [if_pos hfull] at hid ⊢
    obtain ⟨shapes, order⟩ := c
    cases held with
    | nil =>
      rw [List.length_nil] at hlen
      rw [← hlen] at hfull
      exact absurd hfull (by decide)
    | cons oldest held =>
      obtain rfl : oldest.1 :: held.map Prod.fst = order := hm.order
      have hm' := hm.erase
      have hle : held.length + 1 ≤ maxShapes := by
        obtain ⟨-, -, hle, -⟩ := hholds
        exact hle
      rw [List.length_cons, List.length_map] at hfull
      have hnot : id ∉ held.map Prod.fst := hid
      exact ⟨held ++ [(id, shape)], Recent.holds_put_full hholds shape hnot (by omega), hm'.insert shape hnot⟩
  · rw [if_neg hfull] at hid ⊢
    exact ⟨held ++ [(id, shape)], Recent.holds_put hholds shape (by rwa [hm.order]) (by omega), hm.insert shape hid⟩

theorem stands_new : Stands ⟨[], []⟩ Cursors.new := by
  refine ⟨[], Recent.holds_nil maxShapes, rfl, List.nodup_nil, fun id shape => ?_⟩
  constructor
  · intro h
    cases h
  · intro h
    cases h

theorem makeRoom_order (c : Cursors) :
    c.makeRoom.order = if maxShapes ≤ c.order.length then c.order.tail else c.order := by
  unfold Cursors.makeRoom
  split
  · split
    · rename_i heq
      rw [heq]
      rfl
    · rename_i heq
      rw [heq]
      rfl
  · rfl

theorem history_snoc (ms : List (UInt16 × List UInt8)) (m : UInt16 × List UInt8) :
    history p (ms ++ [m]) = (history p ms).add (said p m) := by
  simp [history]

theorem Stands.step {h : History} (hs : Stands h c) {m : UInt16 × List UInt8} (hf : Fresh p c m) :
    Stands (h.add (said p m)) (c.step p m) := by
  rw [step_said]
  cases hsaid : said p m with
  | cached id shape => exact hs.cached shape (hf id shape hsaid)
  | invalidated id => exact hs
  | invalidatedAll => exact stands_new
  | other => exact hs

theorem Kept.fresh {h : History} {m : UInt16 × List UInt8} (hk : Kept h (c.step p m)) : Fresh p c m := by
  intro id shape hsaid
  have hnodup := hk.nodup
  rw [step_said, hsaid] at hnodup
  have hlast : (c.makeRoom.order ++ [id]).Nodup := hnodup
  rw [← makeRoom_order]
  intro hmem
  exact (List.nodup_append.1 hlast).2.2 id hmem id (List.mem_singleton_self id) rfl

/-- In every run the order and the map agree and what is promised is found, after each message, just where no id comes to
be kept that is kept already. -/
theorem shapes_kept_iff (p : Protocol) (ms : List (UInt16 × List UInt8)) :
    (∀ pre m post, ms = pre ++ m :: post → Kept (history p (pre ++ [m])) (after p (pre ++ [m]))) ↔
      ∀ pre m post, ms = pre ++ m :: post → Fresh p (after p pre) m := by
  refine fold_steps_iff (Q := fun pre m _ c => Kept (history p (pre ++ [m])) c) (P := fun pre m => Fresh p (after p pre) m)
    (fun pre c => c = after p pre ∧ Stands (history p pre) c) ⟨rfl, stands_new⟩ ?_ ?_ ms
  · rintro pre c m ⟨rfl, hs⟩
    constructor
    · exact Kept.fresh
    · intro hf
      rw [history_snoc]
      exact (hs.step hf).kept
  · rintro pre c m ⟨rfl, hs⟩ hf
    refine ⟨?_, ?_⟩
    · show _ = List.foldl _ _ (pre ++ [m])
      rw [List.foldl_append]
      rfl
    · rw [history_snoc]
      exact hs.step hf

/-! ## An id that comes twice -/

/-- The protocol's values, and its reader. -/
def wire : Protocol where
  init := 101
  set := 103
  hide := 105
  invalidateAll := 108
  initSize := 9
  setSize := 5
  fromCache := 4
  cacheMe := 2
  read data :=
    if data.length < 19 then none
    else
      let u16 := fun i => UInt16.ofNat (fromLeBytes ((data.drop i).take 2))
      some ⟨u16 0, some ⟨UInt64.ofNat (fromLeBytes ((data.drop 2).take 8)), data.getD 10 0, u16 11, u16 13, u16 15, u16 17⟩,
        data.drop 19⟩
  single type body := if type = 107 ∧ 8 ≤ body.length then some (UInt64.ofNat (fromLeBytes (body.take 8))) else none

/-- A cursor of one pixel that is to be kept under 7. -/
def pixelMessage : UInt16 × List UInt8 :=
  (103, [0, 0, 0, 0, 1] ++ [2, 0, 7, 0, 0, 0, 0, 0, 0, 0, 0, 1, 0, 1, 0, 0, 0, 0, 0] ++ [1, 2, 3, 4])

/-- It is sent twice, and the order has its id twice. -/
theorem kept_twice : ¬Kept (history wire [pixelMessage, pixelMessage]) (after wire [pixelMessage, pixelMessage]) := by
  intro hk
  have horder : (after wire [pixelMessage, pixelMessage]).order = [7, 7] := by decide +kernel
  have hnodup := hk.nodup
  rw [horder] at hnodup
  exact absurd hnodup (by decide)

end Vento.Spice.Cursor
