import Vento.Rfb.Proto
/-!
# The inflate stream

`ZlibStream::inflate` of `rfb/src/zlib.rs`, which runs flate2's `Decompress` over
one rectangle's input. flate2 is not part of the repository: `Flate` is its
interface as the code uses it, and `Codec` adds the server's side and what the
two owe each other, which is that inflating inverts deflating when the server
flushes after each rectangle.
-/

namespace Vento.Rfb

/-- flate2. A call of `Decompress::decompress_vec` on the rest of the input gives
how much of it was consumed, what was appended to the output, and whether the
stream has ended. How much room the output has beyond `CHUNK` is up to the
allocator, so how much a call produces is left to the state. `compress` is a
`Compress` run over a whole input in a stream of its own and flushed. -/
structure Flate where
  State : Type
  new : State
  decompress : State → List UInt8 → Except String (State × Nat × List UInt8 × Bool)
  compress : List UInt8 → List UInt8

/-- The loop of `inflate`. -/
def Flate.inflateLoop (z : Flate) (input : List UInt8) (limit : Nat) :
    Nat → z.State → Nat → List UInt8 → Except Failure (z.State × List UInt8)
  | 0, _, _, _ => .error .hangs
  | fuel + 1, s, consumed, out =>
    if out.length > limit then
      .error (.error (.protocol s!"zlib produced more than the {limit} bytes the rectangle can hold"))
    else
      match z.decompress s (input.drop consumed) with
      | .error e => .error (.error (.protocol s!"zlib: {e}"))
      | .ok (s, n, produced, streamEnd) =>
        let consumed := consumed + n
        let out := out ++ produced
        if streamEnd || (consumed ≥ input.length && produced.isEmpty) then
          if consumed ≠ input.length then
            .error (.error (.protocol s!"zlib left {input.length - consumed} of {input.length} bytes"))
          else .ok (s, out)
        else z.inflateLoop input limit fuel s consumed out

/-- Inflates one rectangle's input, whole. Each round but the last consumes or
produces something, which bounds their number. -/
def Flate.inflate (z : Flate) (s : z.State) (input : List UInt8) (limit : Nat) :
    Except Failure (z.State × List UInt8) :=
  z.inflateLoop input limit (input.length + limit + 2) s 0 []

/-- A server's deflate and this end's inflate. `Sync srv s input plain`: the
server is at `srv`, this end at `s`, with `input` sent and not yet consumed and
`plain` what is still to come out. -/
structure Codec extends Flate where
  /-- With input left and room for output, a call that does not end the stream
  consumes or produces something. -/
  progress : ∀ {s s' : State} {input out : List UInt8} {n : Nat}, decompress s input = .ok (s', n, out, false) →
    n ≤ input.length ∧ (n = 0 → out = [] → input = [])
  Server : Type
  start : Server
  /-- The server deflates `plain` to the bytes and flushes. -/
  Deflates : Server → List UInt8 → List UInt8 → Server → Prop
  Sync : Server → State → List UInt8 → List UInt8 → Prop
  sync_new : Sync start new [] []
  sync_deflate : ∀ {srv srv' : Server} {s : State} {plain bs : List UInt8},
    Sync srv s [] [] → Deflates srv plain bs srv' → Sync srv' s bs plain
  /-- A call takes from the front of both, and stops when the input is used up
  or the room is: one that produces nothing had nothing left to produce. -/
  sync_decompress : ∀ {srv : Server} {s : State} {input plain : List UInt8}, Sync srv s input plain →
    ∃ s' n out plain', decompress s input = .ok (s', n, out, false) ∧ n ≤ input.length ∧ plain = out ++ plain' ∧
      Sync srv s' (input.drop n) plain' ∧ (out = [] → n = input.length ∧ plain' = [])

/-- What this end deflates is a stream of the server's kind, and longer than its
input by no more than a tenth and some: a stored block has five bytes in front. -/
structure Codec.Sends (z : Codec) : Prop where
  deflates : ∀ plain, ∃ srv, z.Deflates z.start plain (z.compress plain) srv
  bound : ∀ plain, (z.compress plain).length ≤ plain.length + plain.length / 10 + 256

namespace Codec

variable {z : Codec}

theorem inflateLoop_sync {srv : z.Server} {limit : Nat} {input : List UInt8} (fuel : Nat) {s : z.State} {consumed : Nat}
    {out plain : List UInt8} (hs : z.Sync srv s (input.drop consumed) plain) (hc : consumed ≤ input.length)
    (hlimit : (out ++ plain).length ≤ limit) (hfuel : plain.length < fuel) :
    ∃ s', z.inflateLoop input limit fuel s consumed out = .ok (s', out ++ plain) ∧ z.Sync srv s' [] [] := by
  induction fuel generalizing s consumed out plain with
  | zero => omega
  | succ fuel ih =>
    obtain ⟨s', n, produced, plain', hcall, hn, rfl, hs', hstop⟩ := z.sync_decompress hs
    rw [List.length_drop] at hn hstop
    rw [List.drop_drop] at hs'
    simp only [List.length_append] at hlimit hfuel
    rw [Flate.inflateLoop, if_neg (by omega), hcall]
    cases produced with
    | nil =>
      -- nothing came out, so all of the input is in and the loop stops here
      obtain ⟨hall, rfl⟩ := hstop rfl
      have hend : consumed + n = input.length := by omega
      rw [hend, List.drop_length] at hs'
      exact ⟨s', by simp [hend], hs'⟩
    | cons b bs =>
      obtain ⟨s'', hloop, hs''⟩ := @ih s' (consumed + n) (out ++ b :: bs) plain' hs' (by omega)
        (by simp only [List.length_append]; omega) (by simp only [List.length_cons] at hfuel; omega)
      refine ⟨s'', ?_, hs''⟩
      simpa using hloop

/-- What the server deflated comes out, and the two are where they were: at the
end of what was sent. -/
theorem inflate_deflated {srv srv' : z.Server} {s : z.State} {plain bs : List UInt8} {limit : Nat}
    (hs : z.Sync srv s [] []) (hd : z.Deflates srv plain bs srv') (hlimit : plain.length ≤ limit) :
    ∃ s', z.inflate s bs limit = .ok (s', plain) ∧ z.Sync srv' s' [] [] :=
  @inflateLoop_sync z srv' limit bs _ s 0 [] plain (by simpa using z.sync_deflate hs hd) (Nat.zero_le _)
    (by simpa using hlimit) (by omega)

/-- Inflating ends on any input: each round takes from what is left of the input
or of the room. -/
theorem inflateLoop_ends {input : List UInt8} {limit fuel : Nat} {s : z.State} {consumed : Nat} {out : List UInt8}
    (hc : consumed ≤ input.length) (hfuel : input.length - consumed + (limit + 1 - out.length) < fuel) :
    z.inflateLoop input limit fuel s consumed out ≠ .error .hangs := by
  induction fuel generalizing s consumed out with
  | zero => omega
  | succ fuel ih =>
    unfold Flate.inflateLoop
    split
    · exact nofun
    · split
      · exact nofun
      · rename_i hcall
        simp only
        split
        · split <;> exact nofun
        · rename_i s' n produced streamEnd hgo
          simp only [Bool.or_eq_true, Bool.and_eq_true, decide_eq_true_eq, List.isEmpty_iff, not_or, not_and,
            Bool.not_eq_true] at hgo
          rw [hgo.1] at hcall
          obtain ⟨hn, hprogress⟩ := z.progress hcall
          rw [List.length_drop] at hn
          -- the loop goes on with input left or output made, so the measure went down
          have hmore : 0 < n ∨ 0 < produced.length := by
            rcases Nat.eq_zero_or_pos n with hn0 | hn0
            · refine .inr (List.length_pos_iff.2 fun hp => ?_)
              have hall := List.drop_eq_nil_iff.1 (hprogress hn0 hp)
              exact hgo.2 (by omega) hp
            · exact .inl hn0
          exact ih (by omega) (by rw [List.length_append]; omega)

theorem inflate_ends (s : z.State) (input : List UInt8) (limit : Nat) : z.inflate s input limit ≠ .error .hangs :=
  inflateLoop_ends (Nat.zero_le _) (by simp only [List.length_nil]; omega)

end Codec

/-! ## Stored blocks

The deflate streams that are stored blocks alone, after a zlib header: a codec
to run the decoders with. -/

/-- Where in the stream the inflater is. -/
inductive Stored where
  | cmf
  | flg
  | block
  | lenLow
  | lenHigh (low : UInt8)
  | nlenLow (len : Nat)
  | nlenHigh (len : Nat) (low : UInt8)
  | data (left : Nat)
deriving DecidableEq, Repr

namespace Stored

def feed : Stored → UInt8 → Except String (Stored × List UInt8)
  | cmf, b => if b = 0x78 then .ok (flg, []) else .error "bad header"
  | flg, b => if b = 0x01 then .ok (block, []) else .error "bad header"
  | block, b => if b = 0 then .ok (lenLow, []) else .error "bad block type"
  | lenLow, b => .ok (lenHigh b, [])
  | lenHigh low, b => .ok (nlenLow (low.toNat + 256 * b.toNat), [])
  | nlenLow len, b => .ok (nlenHigh len b, [])
  | nlenHigh len low, b =>
    if low.toNat + 256 * b.toNat + len = 65535 then .ok (if len = 0 then block else data len, [])
    else .error "bad stored length"
  | data left, b => .ok (if left = 1 then block else data (left - 1), [b])

def feedAll (s : Stored) : List UInt8 → Except String (Stored × List UInt8)
  | [] => .ok (s, [])
  | b :: bs => do
    let (s, out) ← s.feed b
    let (s, rest) ← s.feedAll bs
    return (s, out ++ rest)

/-- A stored block. -/
def blockBytes (chunk : List UInt8) : List UInt8 :=
  0 :: UInt8.ofNat chunk.length :: UInt8.ofNat (chunk.length / 256) ::
    UInt8.ofNat (65535 - chunk.length) :: UInt8.ofNat ((65535 - chunk.length) / 256) :: chunk

/-- Stored blocks of `plain`; a flush is an empty one. -/
inductive Blocks : List UInt8 → List UInt8 → Prop
  | nil : Blocks [] []
  | cons {chunk plain bs : List UInt8} :
    chunk.length < 2 ^ 16 → Blocks plain bs → Blocks (chunk ++ plain) (blockBytes chunk ++ bs)

/-- The zlib header, at the start of the stream only. -/
def header (s : Stored) : List UInt8 := if s = cmf then [0x78, 0x01] else []

theorem feedAll_cons {s s' s'' : Stored} {b : UInt8} {bs out out' : List UInt8} (h : s.feed b = .ok (s', out))
    (h' : s'.feedAll bs = .ok (s'', out')) : s.feedAll (b :: bs) = .ok (s'', out ++ out') := by
  simp only [feedAll, h]
  show (s'.feedAll bs >>= fun r => Except.ok (r.1, out ++ r.2)) = _
  rw [h']
  rfl

theorem feedAll_append {s s' s'' : Stored} {bs cs out out' : List UInt8} (h : s.feedAll bs = .ok (s', out))
    (h' : s'.feedAll cs = .ok (s'', out')) : s.feedAll (bs ++ cs) = .ok (s'', out ++ out') := by
  induction bs generalizing s out with
  | nil =>
    cases h
    exact h'
  | cons b bs ih =>
    cases hb : s.feed b with
    | error e =>
      rw [feedAll, hb] at h
      cases h
    | ok r =>
      obtain ⟨s₁, out₁⟩ := r
      cases hbs : s₁.feedAll bs with
      | error e =>
        simp only [feedAll, hb] at h
        change (s₁.feedAll bs >>= _) = _ at h
        rw [hbs] at h
        cases h
      | ok r =>
        obtain ⟨s₂, out₂⟩ := r
        rw [feedAll_cons hb hbs] at h
        cases h
        rw [List.cons_append, feedAll_cons hb (ih hbs), List.append_assoc]

/-- The type and the lengths of a stored block. -/
theorem feedAll_lengths {n : Nat} (hn : n < 2 ^ 16) :
    block.feedAll [0, UInt8.ofNat n, UInt8.ofNat (n / 256), UInt8.ofNat (65535 - n), UInt8.ofNat ((65535 - n) / 256)] =
      .ok (if n = 0 then block else data n, []) := by
  have hlen : (UInt8.ofNat n).toNat + 256 * (UInt8.ofNat (n / 256)).toNat = n := by
    simp only [UInt8.toNat_ofNat']
    omega
  have hnlen : (UInt8.ofNat (65535 - n)).toNat + 256 * (UInt8.ofNat ((65535 - n) / 256)).toNat + n = 65535 := by
    simp only [UInt8.toNat_ofNat']
    omega
  have hhigh : (lenHigh (UInt8.ofNat n)).feed (UInt8.ofNat (n / 256)) = .ok (nlenLow n, []) := by rw [feed, hlen]
  have hlast : (nlenHigh n (UInt8.ofNat (65535 - n))).feed (UInt8.ofNat ((65535 - n) / 256)) =
      .ok (if n = 0 then block else data n, []) := by
    rw [feed, if_pos hnlen]
  have h0 : block.feed 0 = .ok (lenLow, []) := rfl
  have h1 : lenLow.feed (UInt8.ofNat n) = .ok (lenHigh (UInt8.ofNat n), []) := rfl
  have h3 : (nlenLow n).feed (UInt8.ofNat (65535 - n)) = .ok (nlenHigh n (UInt8.ofNat (65535 - n)), []) := rfl
  exact feedAll_cons h0 (feedAll_cons h1 (feedAll_cons hhigh (feedAll_cons h3 (feedAll_cons hlast rfl))))

theorem feedAll_data (chunk : List UInt8) :
    (if chunk.length = 0 then block else data chunk.length).feedAll chunk = .ok (block, chunk) := by
  induction chunk with
  | nil => rfl
  | cons b chunk ih =>
    have hfeed : (data (chunk.length + 1)).feed b =
        .ok (if chunk.length = 0 then block else data chunk.length, [b]) := by
      simp [feed]
    exact feedAll_cons hfeed ih

theorem Blocks.feedAll {plain bs : List UInt8} (h : Blocks plain bs) : block.feedAll bs = .ok (block, plain) := by
  induction h with
  | nil => rfl
  | @cons chunk plain bs hlen _ ih =>
    exact feedAll_append (feedAll_append (feedAll_lengths hlen) (feedAll_data chunk)) ih

theorem feedAll_header {s : Stored} (hs : s = cmf ∨ s = block) : s.feedAll s.header = .ok (block, []) := by
  rcases hs with rfl | rfl <;> rfl

/-- Stored blocks, as long as they may be. -/
def blocksOf : Nat → List UInt8 → List UInt8
  | 0, _ => []
  | fuel + 1, plain => if plain = [] then [] else blockBytes (plain.take 65535) ++ blocksOf fuel (plain.drop 65535)

theorem blocks_blocksOf {fuel : Nat} {plain : List UInt8} (hfuel : plain.length ≤ fuel) :
    Blocks plain (blocksOf fuel plain) := by
  induction fuel generalizing plain with
  | zero =>
    rw [List.length_eq_zero_iff.1 (Nat.le_zero.1 hfuel)]
    exact .nil
  | succ fuel ih =>
    rw [blocksOf]
    split
    · subst plain
      exact .nil
    · have hpos : 0 < plain.length := List.length_pos_iff.2 ‹_›
      have hchunk : (plain.take 65535).length < 2 ^ 16 := by
        rw [List.length_take]
        omega
      have hrest : (plain.drop 65535).length ≤ fuel := by
        rw [List.length_drop]
        omega
      have h := Blocks.cons hchunk (ih hrest)
      rwa [List.take_append_drop] at h

/-- They are nearly as long as what they hold. -/
theorem blocksOf_length (fuel : Nat) {plain : List UInt8} (hfuel : plain.length ≤ fuel) :
    plain.length ≤ (blocksOf fuel plain).length ∧
      (blocksOf fuel plain).length ≤ plain.length + 5 * ((plain.length + 65534) / 65535) := by
  induction fuel generalizing plain with
  | zero => simp only [blocksOf, List.length_nil]; omega
  | succ fuel ih =>
    rw [blocksOf]
    split
    · subst plain
      simp
    · have hpos : 0 < plain.length := List.length_pos_iff.2 ‹_›
      have hrest : (plain.drop 65535).length ≤ fuel := by
        rw [List.length_drop]
        omega
      have h := ih hrest
      simp only [blockBytes, List.length_append, List.length_cons, List.length_take, List.length_drop] at h ⊢
      omega

/-- A stream may be flushed any number of times. -/
theorem exists_flushes (n : Nat) : ∃ bs, Blocks [] bs ∧ bs.length = 5 * n := by
  induction n with
  | zero => exact ⟨[], .nil, rfl⟩
  | succ n ih =>
    obtain ⟨bs, hb, hlen⟩ := ih
    refine ⟨blockBytes [] ++ bs, @Blocks.cons [] [] bs (by decide) hb, ?_⟩
    rw [List.length_append, hlen, blockBytes]
    simp only [List.length_cons, List.length_nil]
    omega

/-- One call takes all of its input. -/
def decompress (s : Stored) (input : List UInt8) : Except String (Stored × Nat × List UInt8 × Bool) :=
  (s.feedAll input).map fun r => (r.1, input.length, r.2, false)

end Stored

def storedCodec : Codec where
  State := Stored
  new := .cmf
  decompress := Stored.decompress
  compress plain := Stored.header .cmf ++ Stored.blocksOf plain.length plain
  progress {s s' input out n} h := by
    unfold Stored.decompress at h
    cases hf : s.feedAll input with
    | error e =>
      rw [hf] at h
      cases h
    | ok r =>
      rw [hf] at h
      cases h
      exact ⟨Nat.le_refl _, fun h0 _ => List.length_eq_zero_iff.1 h0⟩
  Server := Stored
  start := .cmf
  Deflates srv plain bs srv' := srv' = .block ∧ ∃ blocks, Stored.Blocks plain blocks ∧ bs = srv.header ++ blocks
  Sync srv s input plain := (srv = .cmf ∨ srv = .block) ∧ s.feedAll input = .ok (srv, plain)
  sync_new := ⟨.inl rfl, rfl⟩
  sync_deflate := by
    rintro srv srv' s plain bs ⟨hsrv, hs⟩ ⟨rfl, blocks, hb, rfl⟩
    cases hs
    exact ⟨.inr rfl, Stored.feedAll_append (Stored.feedAll_header hsrv) hb.feedAll⟩
  sync_decompress := by
    rintro srv s input plain ⟨hsrv, hs⟩
    refine ⟨srv, input.length, plain, [], ?_, Nat.le_refl _, by simp, ⟨hsrv, ?_⟩, fun _ => ⟨rfl, rfl⟩⟩
    · rw [Stored.decompress, hs]
      rfl
    · rw [List.drop_length]
      rfl

theorem storedCodec_sends : storedCodec.Sends where
  deflates plain := ⟨.block, rfl, _, Stored.blocks_blocksOf (Nat.le_refl _), rfl⟩
  bound plain := by
    have h := (Stored.blocksOf_length plain.length (Nat.le_refl _)).2
    show (Stored.header .cmf ++ Stored.blocksOf plain.length plain).length ≤ _
    simp only [Stored.header, if_true, List.length_append, List.length_cons, List.length_nil]
    omega

end Vento.Rfb
