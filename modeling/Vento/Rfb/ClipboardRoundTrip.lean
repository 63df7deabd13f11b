import Vento.Rfb.Messages
/-!
# Texts come back as they were sent

A text this end provides, read by this end's `parse`: through the line ends, the
terminating NUL, the length in front of it and the deflate stream around both.
And what `parse` does with a body from anyone else.
-/

namespace Vento.Runtime

open Vento.Rfb

/-! ## Line ends -/

def crlf (c : Char) : Text := if c = '\n' then ['\r', '\n'] else [c]

theorem cr_not_mem_toLf (text : Text) : '\r' ∉ toLf text := by
  intro h
  obtain ⟨c, -, hc⟩ := List.mem_map.1 h
  by_cases hcr : c = '\r'
  · rw [if_pos hcr] at hc
    exact absurd hc (by decide)
  · rw [if_neg hcr] at hc
    exact hcr hc

theorem dropCr_cons {c : Char} (hc : c ≠ '\r') (text : Text) : dropCr (c :: text) = c :: dropCr text := by
  rw [dropCr]
  rintro cs rfl
  exact absurd rfl hc

/-- Taking the CRs out again undoes putting them in. -/
theorem dropCr_flatMap {text : Text} (h : '\r' ∉ text) : dropCr (text.flatMap crlf) = text := by
  induction text with
  | nil => rfl
  | cons c text ih =>
    rw [List.mem_cons, not_or] at h
    rw [List.flatMap_cons, crlf]
    by_cases hc : c = '\n'
    · subst hc
      rw [if_pos rfl]
      exact congrArg _ (ih h.2)
    · rw [if_neg hc, List.singleton_append, dropCr_cons (Ne.symm h.1), ih h.2]

theorem toLf_toCrlf (text : Text) : toLf (toCrlf text) = toLf text := by
  have hcr := cr_not_mem_toLf text
  show (dropCr ((toLf text).flatMap crlf)).map _ = _
  rw [dropCr_flatMap hcr]
  refine (List.map_congr_left fun c hc => ?_).trans (List.map_id _)
  have hne : c ≠ '\r' := by
    rintro rfl
    exact hcr hc
  exact if_neg hne

theorem mem_of_mem_dropCr {c : Char} {text : Text} (h : c ∈ dropCr text) : c ∈ text := by
  fun_induction dropCr text with
  | case1 cs ih => grind
  | case2 d cs hcs ih => grind
  | case3 => exact h

theorem mem_of_mem_toCrlf {c : Char} {text : Text} (h : c ∈ toCrlf text) : c ∈ text ∨ c = '\r' ∨ c = '\n' := by
  obtain ⟨d, hd, hc⟩ := List.mem_flatMap.1 h
  obtain ⟨e, he, rfl⟩ := List.mem_map.1 hd
  have he' := mem_of_mem_dropCr he
  grind

end Vento.Runtime

namespace Vento.Rfb.Clipboard

open Vento.Lib Vento.Runtime

/-! ## UTF-8 -/

def utf8Bytes (text : Text) : List UInt8 := text.flatMap String.utf8EncodeChar

theorem toUTF8_ofList (text : Text) : (String.ofList text).toUTF8.data.toList = utf8Bytes text := by
  show (String.ofList text).toByteArray.data.toList = _
  rw [String.toByteArray_ofList, List.utf8Encode, List.data_toByteArray]
  rfl

theorem fromUtf8_eq_some {bs : List UInt8} {text : Text} : fromUtf8 bs = some text ↔ bs = utf8Bytes text := by
  unfold fromUtf8 String.fromUTF8?
  constructor
  · intro h
    split at h
    · simp only [Option.map_some, Option.some.injEq] at h
      rw [← toUTF8_ofList, ← h, String.ofList_toList]
      rfl
    · cases h
  · rintro rfl
    have hbytes : (⟨(utf8Bytes text).toArray⟩ : ByteArray) = (String.ofList text).toByteArray := by
      rw [← toUTF8_ofList]
      rfl
    rw [dif_pos (hbytes ▸ (String.ofList text).isValidUTF8)]
    rw [show String.fromUTF8 _ _ = String.ofList text from String.toByteArray_inj.1 hbytes]
    exact congrArg some String.toList_ofList

/-- Only NUL has a zero byte. -/
theorem zero_not_mem_encode {c : Char} (hc : c ≠ '\x00') : 0 ∉ String.utf8EncodeChar c := by
  have hval : c.val.toNat ≠ 0 := fun h => hc (Char.ext (UInt32.toNat_inj.1 h))
  have hpos : ∀ n, 0 < n → n < 256 → (0 : UInt8) ≠ UInt8.ofNat n := by
    intro n h0 h1 h
    have h2 := congrArg UInt8.toNat h
    rw [UInt8.toNat_ofNat', Nat.mod_eq_of_lt h1] at h2
    exact absurd h2.symm (Nat.ne_of_gt h0)
  unfold String.utf8EncodeChar
  simp only
  repeat' split
  all_goals simp only [List.mem_cons, List.not_mem_nil, or_false, not_or]
  · exact hpos _ (by omega) (by omega)
  · exact ⟨hpos _ (by omega) (by omega), hpos _ (by omega) (by omega)⟩
  · exact ⟨hpos _ (by omega) (by omega), hpos _ (by omega) (by omega), hpos _ (by omega) (by omega)⟩
  · exact ⟨hpos _ (by omega) (by omega), hpos _ (by omega) (by omega), hpos _ (by omega) (by omega),
      hpos _ (by omega) (by omega)⟩

theorem zero_not_mem_utf8Bytes {text : Text} (h : '\x00' ∉ text) : 0 ∉ utf8Bytes text := by
  intro hmem
  obtain ⟨c, hc, hzero⟩ := List.mem_flatMap.1 hmem
  refine zero_not_mem_encode ?_ hzero
  rintro rfl
  exact h hc

/-- One line end more has no more bytes than it had. -/
theorem utf8Bytes_toLf_length (text : Text) : (utf8Bytes (toLf text)).length ≤ (utf8Bytes text).length := by
  have hdrop : (utf8Bytes (dropCr text)).length ≤ (utf8Bytes text).length := by
    unfold utf8Bytes
    fun_induction dropCr text with
    | case1 cs ih =>
      simp only [List.flatMap_cons, List.length_append]
      omega
    | case2 d cs hcs ih =>
      simp only [List.flatMap_cons, List.length_append]
      omega
    | case3 => exact Nat.le_refl _
  refine Nat.le_trans (Nat.le_of_eq ?_) hdrop
  -- a CR and an LF have one byte each
  unfold utf8Bytes toLf
  induction dropCr text with
  | nil => rfl
  | cons c cs ih =>
    rw [List.map_cons, List.flatMap_cons, List.flatMap_cons, List.length_append, List.length_append, ih]
    by_cases hc : c = '\r'
    · rw [if_pos hc, hc]
      rfl
    · rw [if_neg hc]

/-! ## Any body -/

theorem length_le_of_capsSizes {flags : UInt32} {sizes : List Nat} {size : Option Nat}
    (h : capsSizes flags sizes = .ok size) : (formats flags).length ≤ sizes.length := by
  suffices hbits : ∀ (bits : List Nat) (s s' : List Nat × Option Nat), bits.foldlM (capsSize flags) s = .ok s' →
      (bits.filter fun bit => flags &&& (1 <<< UInt32.ofNat bit) ≠ 0).length ≤ s.1.length by
    cases hfold : (List.range 16).foldlM (capsSize flags) (sizes, none) with
    | error e =>
      rw [capsSizes, hfold] at h
      cases h
    | ok s' => exact hbits _ _ s' hfold
  clear h size sizes
  intro bits
  induction bits with
  | nil => exact fun s _ _ => Nat.zero_le _
  | cons bit bits ih =>
    rintro ⟨sizes, found⟩ s' hfold
    rw [List.foldlM_cons, capsSize] at hfold
    by_cases hbit : flags &&& (1 <<< UInt32.ofNat bit) ≠ 0
    · rw [if_pos hbit] at hfold
      cases sizes with
      | nil => cases hfold
      | cons size sizes =>
        rw [List.filter_cons_of_pos (by simpa using hbit)]
        exact Nat.succ_le_succ (ih _ s' hfold)
    · rw [if_neg hbit] at hfold
      rw [List.filter_cons_of_neg (by simpa using hbit)]
      exact ih _ s' hfold

/-- A message that is not complete is refused, as one the protocol does not have. -/
theorem parse_refused (z : Codec) {body : List UInt8} (max : Nat) (h : ¬Complete body) :
    ∃ e, parse z.toFlate body max = .error (.error (.protocol e)) := by
  unfold parse
  by_cases hlen : body.length < 4
  · rw [if_pos hlen]
    exact ⟨_, rfl⟩
  · rw [if_neg hlen]
    have hflags := fun hrest => h ⟨Nat.le_of_not_lt hlen, hrest⟩
    unfold flagsOf at hflags
    generalize UInt32.ofNat (fromBeBytes (body.take 4)) = flags at hflags ⊢
    simp only
    by_cases hcaps : flags &&& caps ≠ 0
    · rw [if_pos hcaps] at hflags ⊢
      cases hsizes : capsSizes flags (words (body.drop 4)) with
      | error e => exact ⟨e, rfl⟩
      | ok size => exact absurd (length_le_of_capsSizes hsizes) hflags
    · rw [if_neg hcaps] at hflags ⊢
      simp only [List.mem_cons, List.not_mem_nil, or_false, imp_false, not_or] at hflags
      obtain ⟨h1, h2, h3, h4⟩ := hflags
      rw [if_neg h1, if_neg h2, if_neg h3, if_neg h4]
      exact ⟨_, rfl⟩

theorem parse_complete {z : Codec} {body : List UInt8} {max : Nat} {message : Message}
    (h : parse z.toFlate body max = .ok message) : Complete body := by
  by_contra hnot
  obtain ⟨e, he⟩ := parse_refused z max hnot
  rw [he] at h
  cases h

theorem providedText_length {z : Flate} {flags : UInt32} {deflated : List UInt8} {max : Nat} {text : Text}
    (h : providedText z flags deflated max = .ok (some text)) : (utf8Bytes text).length ≤ max + 1 := by
  unfold providedText at h
  split at h
  · cases h
  · split at h
    · cases h
    · cases h
    · rename_i inflated hinflate
      simp only at h
      split at h
      · cases h
      · split at h
        · cases h
        · rename_i hlength
          split at h
          · cases h
          · -- what was cut at its NUL is no longer than it said
            simp only [Except.ok.injEq, Option.map_eq_some_iff] at h
            obtain ⟨sent, hsent, rfl⟩ := h
            rw [fromUtf8_eq_some] at hsent
            have hlf := utf8Bytes_toLf_length sent
            have hcut := (List.takeWhile_sublist (· ≠ (0 : UInt8))
              (l := (inflated.drop 4).take (fromBeBytes (inflated.take 4)))).length_le
            rw [hsent, List.length_take] at hcut
            omega

theorem provide_length {z : Flate} {body : List UInt8} {max : Nat} {text : Text}
    (h : parse z body max = .ok (.provide (some text))) : (utf8Bytes text).length ≤ max + 1 := by
  unfold parse at h
  split at h
  · cases h
  · simp only at h
    split at h
    · split at h
      · cases h
      · cases h
    · split at h
      · cases htext : providedText z (UInt32.ofNat (fromBeBytes (body.take 4))) (body.drop 4) max with
        | error f =>
          rw [htext] at h
          cases h
        | ok found =>
          rw [htext] at h
          cases h
          exact providedText_length htext
      · repeat' split at h
        all_goals cases h

/-! ## The round trip -/

/-- A provide of `wire` within the limit is read to the NUL. -/
theorem providedText_inflated {z : Flate} {flags : UInt32} {deflated wire : List UInt8} {max : Nat} {s : z.State}
    (hflags : flags &&& utf8 ≠ 0)
    (hinflate : z.inflate z.new deflated (max + 8) = .ok (s, toBeBytes 4 wire.length ++ wire))
    (hlen : wire.length ≤ max + 1) (hword : wire.length < 2 ^ 32) :
    providedText z flags deflated max = .ok ((fromUtf8 (wire.takeWhile (· ≠ 0))).map toLf) := by
  have htake : (toBeBytes 4 wire.length ++ wire).take 4 = toBeBytes 4 wire.length :=
    List.take_left' (toBeBytes_length 4 _)
  have hdrop : (toBeBytes 4 wire.length ++ wire).drop 4 = wire := List.drop_left' (toBeBytes_length 4 _)
  have htotal : (toBeBytes 4 wire.length ++ wire).length = 4 + wire.length := by
    rw [List.length_append, toBeBytes_length]
  unfold providedText
  rw [if_neg hflags, hinflate]
  simp only [htake, hdrop, htotal, fromBeBytes_toBeBytes (show wire.length < 256 ^ 4 by omega), List.take_length]
  rw [if_neg (by omega), if_neg (by omega), if_neg (by omega)]

theorem wireText_eq (text : Text) : wireText text = utf8Bytes (toCrlf text) ++ [0] :=
  congrArg (· ++ [0]) (toUTF8_ofList _)

theorem takeWhile_wireText {text : Text} (h : '\x00' ∉ text) :
    (wireText text).takeWhile (· ≠ 0) = utf8Bytes (toCrlf text) := by
  have hcrlf : '\x00' ∉ toCrlf text := by
    intro hmem
    rcases mem_of_mem_toCrlf hmem with hc | hc | hc
    · exact h hc
    · exact absurd hc (by decide)
    · exact absurd hc (by decide)
  have hzero := zero_not_mem_utf8Bytes hcrlf
  rw [wireText_eq, List.takeWhile_append_of_pos, List.takeWhile_cons_of_neg (by simp), List.append_nil]
  intro b hb
  simp only [ne_eq, decide_eq_true_eq]
  rintro rfl
  exact hzero hb

theorem message_body (flags : UInt32) (payload : List UInt8) :
    (message flags payload).drop 8 = toBeBytes 4 flags.toNat ++ payload :=
  @List.drop_left' _ (6 :: 0 :: 0 :: 0 :: toBeBytes 4 (ofI32 (-(4 + payload.length)))) _ 8
    (by rw [List.length_cons, List.length_cons, List.length_cons, List.length_cons, toBeBytes_length])

/-- The length a message has in front of its body. -/
def lengthField (msg : List UInt8) : Int := asI32 (fromBeBytes ((msg.drop 4).take 4))

theorem lengthField_message {flags : UInt32} {payload : List UInt8} (h : 4 + payload.length ≤ 2 ^ 31) :
    lengthField (message flags payload) = -((message flags payload).drop 8).length := by
  have hfield : ((message flags payload).drop 4).take 4 = toBeBytes 4 (ofI32 (-(4 + payload.length))) :=
    List.take_left' (toBeBytes_length 4 _)
  rw [lengthField, hfield, fromBeBytes_toBeBytes (ofI32_lt _), asI32_ofI32 (by omega) (by omega), message_body,
    List.length_append, toBeBytes_length]
  rfl

theorem parse_provide (z : Flate) (payload : List UInt8) (max : Nat) :
    parse z (toBeBytes 4 (provide ||| utf8).toNat ++ payload) max =
      .provide <$> providedText z (provide ||| utf8) payload max := by
  obtain ⟨hflags, hdrop, hlen⟩ := flags_append (provide ||| utf8) payload
  unfold flagsOf at hflags
  unfold parse
  rw [if_neg (by omega), hflags, hdrop]
  rfl

theorem wireText_length (text : Text) : (wireText text).length = (utf8Bytes (toCrlf text)).length + 1 := by
  rw [wireText_eq, List.length_append, List.length_singleton]

theorem parse_provideMessage {z : Codec} (hz : z.Sends) {text : Text} {max : Nat} (hzero : '\x00' ∉ text)
    (hlen : (utf8Bytes (toCrlf text)).length ≤ max) (hmax : max ≤ 2 ^ 30) :
    parse z.toFlate ((provideMessage z.toFlate (wireText text)).drop 8) max = .ok (.provide (some (toLf text))) := by
  have hwire := wireText_length text
  obtain ⟨srv, hd⟩ := hz.deflates (toBeBytes 4 (wireText text).length ++ wireText text)
  have hplain : (toBeBytes 4 (wireText text).length ++ wireText text).length ≤ max + 8 := by
    rw [List.length_append, toBeBytes_length]
    omega
  obtain ⟨s, hinflate, -⟩ := z.inflate_deflated z.sync_new hd hplain
  have htext : providedText z.toFlate (provide ||| utf8) _ max = _ :=
    providedText_inflated (by decide) hinflate (by omega) (by omega)
  rw [takeWhile_wireText hzero, fromUtf8_eq_some.2 rfl, Option.map_some, toLf_toCrlf] at htext
  rw [provideMessage, message_body, parse_provide, htext]
  rfl

theorem lengthField_provideMessage {z : Codec} (hz : z.Sends) {text : Text}
    (hlen : (utf8Bytes (toCrlf text)).length ≤ 2 ^ 30) :
    lengthField (provideMessage z.toFlate (wireText text)) =
      -((provideMessage z.toFlate (wireText text)).drop 8).length := by
  have hbound := hz.bound (toBeBytes 4 (wireText text).length ++ wireText text)
  have hwire := wireText_length text
  rw [List.length_append, toBeBytes_length] at hbound
  exact lengthField_message (by omega)

end Vento.Rfb.Clipboard
