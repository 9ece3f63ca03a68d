import FusionStore.ForStd.Except
import FusionStore.Native.WalCodec

/-!
# WAL codec correctness

Decoding an encoded operation gives it back, and reading a log file gives back
the frames that were written to it, whatever strict prefix of one more frame
follows them.

## Key results

- `decodeOp_encodeOp`: the operation codec round trip
- `readAll_frames_append`: `readAll` over complete frames followed by a torn one
- `encodeOp_of_decodeOp`, `frames_of_readAll`: what is accepted is what would be written
-/

namespace FusionStore

open LittleEndian

/-! ## Reader steps

The guard in front of each slice keeps it in range. -/

/-- A slice from the front in range. -/
private theorem slice_start {bs : Bytes} {n : Nat} (h : n ≤ bs.length) :
    slice bs 0 n = .ok (bs.take n) := by
  simp [slice, h]

/-- A slice to the end in range. -/
private theorem slice_rest {bs : Bytes} {n : Nat} (h : n ≤ bs.length) :
    slice bs n bs.length = .ok (bs.drop n) := by
  simp [slice, h]

/-- `try_into` on a slice of the right length. -/
private theorem toArray_of_length {n : Nat} {bs : Bytes} (h : bs.length = n) :
    toArray n bs = .ok bs := by
  simp [toArray, h]

/-- Once its check has passed, `read_u32` has no slice out of range. -/
theorem readU32_eq (r : Bytes) :
    readU32 r = if r.length < 4 then .error (.corrupt "wal op body truncated at u32")
      else .ok (ofLE (r.take 4), r.drop 4) := by
  unfold readU32
  split
  · rfl
  · rename_i h
    have hlen : (r.take 4).length = 4 := by simp; omega
    rw [slice_start (by omega), slice_rest (by omega)]
    simp only [bind, Except.bind, toArray_of_length hlen]

/-- Nor has `read_bytes`. -/
theorem readBytes_eq (r : Bytes) (len : Nat) :
    readBytes r len =
      if r.length < len then
        .error (.corrupt s!"wal op body truncated: need {len} have {r.length}")
      else .ok (r.take len, r.drop len) := by
  unfold readBytes
  split
  · rfl
  · rw [slice_start (by omega), slice_rest (by omega)]
    rfl

/-- The decoder of an insert without its slices: none of them can panic. -/
theorem decodeInsertVec_eq (body : Bytes) :
    decodeInsertVec body =
      if body.length < 8 then .error (.corrupt "wal insert_vec truncated id")
      else readU32 (body.drop 8) >>= fun (dim, r) =>
        if dim * 4 > u64Max then .error (.corrupt "wal insert_vec dim overflow")
        else readBytes r (dim * 4) >>= fun (raw, r) =>
          if !r.isEmpty then .error (.corrupt "wal insert_vec trailing bytes")
          else .ok (.insertVector (UInt64.ofNat (ofLE (body.take 8))) (decodeF32s raw)) := by
  unfold decodeInsertVec
  split
  · rfl
  · rename_i h
    have hlen : (body.take 8).length = 8 := by simp; omega
    rw [slice_start (by omega), slice_rest (by omega)]
    simp only [bind, Except.bind, toArray_of_length hlen]

/-- The decoder of a delete, likewise. -/
theorem decodeDeleteVec_eq (body : Bytes) :
    decodeDeleteVec body =
      if body.length ≠ 8 then .error (.corrupt "wal delete_vec body != 8 bytes")
      else .ok (.deleteVector (UInt64.ofNat (ofLE body))) := by
  unfold decodeDeleteVec
  split
  · rfl
  · rename_i h
    rw [toArray_of_length (not_not.mp h)]
    rfl

/-- `readU32` reads back a length written by `write_u32`. -/
private theorem readU32_toLE (n : Nat) (rest : Bytes) (hn : n ≤ u32Max) :
    readU32 (toLE 4 n ++ rest) = .ok (n, rest) := by
  have hlt : n < 256 ^ 4 := by simp only [u32Max] at hn; omega
  have htake : (toLE 4 n ++ rest).take 4 = toLE 4 n :=
    List.take_left' (length_toLE 4 n)
  have hdrop : (toLE 4 n ++ rest).drop 4 = rest :=
    List.drop_left' (length_toLE 4 n)
  simp only [readU32_eq, List.length_append, length_toLE, htake, hdrop, ofLE_toLE_of_lt hlt]
  rw [if_neg (by omega)]

/-- `readBytes` reads back a payload. -/
private theorem readBytes_append (bs rest : Bytes) :
    readBytes (bs ++ rest) bs.length = .ok (bs, rest) := by
  simp only [readBytes_eq, List.length_append, List.take_left, List.drop_left]
  rw [if_neg (by omega)]

/-- All that is there. -/
private theorem readBytes_self (bs : Bytes) :
    readBytes bs bs.length = .ok (bs, []) := by
  have h := readBytes_append bs []
  rwa [List.append_nil] at h

/-! ## `f32` payloads -/

/-- Four bytes a float. -/
@[simp] theorem length_encodeF32s (v : List F32) : (encodeF32s v).length = v.length * 4 := by
  induction v with
  | nil => rfl
  | cons f fs ih =>
    simp only [encodeF32s, List.flatMap_cons, List.length_append, length_toLE,
      List.length_cons] at ih ⊢
    omega

/-- Four little-endian bytes decode to the bit pattern they came from. -/
private theorem decodeF32s_toLE (f : F32) (rest : Bytes) :
    decodeF32s (toLE 4 f.toNat ++ rest) = f :: decodeF32s rest := by
  have hf : ofLE (toLE 4 f.toNat) = f.toNat :=
    ofLE_toLE_of_lt (by have := f.toNat_lt; omega)
  simp only [toLE] at hf ⊢
  simp only [List.cons_append, List.nil_append, decodeF32s, hf, UInt32.ofNat_toNat]

/-- Floats are their bit patterns, so they come back. -/
theorem decodeF32s_encodeF32s (v : List F32) : decodeF32s (encodeF32s v) = v := by
  induction v with
  | nil => rfl
  | cons f fs ih =>
    simp only [encodeF32s, List.flatMap_cons] at ih ⊢
    rw [decodeF32s_toLE, ih]

/-- Bytes that fill no float are dropped. -/
theorem length_decodeF32s (bs : Bytes) : (decodeF32s bs).length = bs.length / 4 := by
  fun_induction decodeF32s bs with
  | case1 a b c d rest ih =>
    simp only [List.length_cons, ih]
    omega
  | case2 bs hbs =>
    -- fewer than four bytes are left
    have hlt : bs.length < 4 := by
      match bs, hbs with
      | [], _ => decide
      | [_], _ => exact Nat.succ_lt_succ (by decide)
      | [_, _], _ => exact Nat.succ_lt_succ (Nat.succ_lt_succ (by decide))
      | [_, _, _], _ => exact Nat.lt_succ_self 3
      | a :: b :: c :: d :: rest, hbs => exact absurd rfl (hbs a b c d rest)
    rw [Nat.div_eq_of_lt hlt]
    rfl

/-! ## Operation round trip -/

/-- Ids come back. -/
private theorem u64_roundtrip (id : UInt64) : UInt64.ofNat (ofLE (toLE 8 id.toNat)) = id := by
  have h : ofLE (toLE 8 id.toNat) = id.toNat :=
    ofLE_toLE_of_lt (by have := id.toNat_lt; omega)
  rw [h, UInt64.ofNat_toNat]

/-- UTF-8 validation accepts the bytes of a string and returns it. -/
theorem strFromUtf8_strBytes (s : String) : strFromUtf8 (strBytes s) = some s := by
  have hb : (⟨(strBytes s).toArray⟩ : ByteArray) = s.toByteArray := by
    simp only [strBytes, String.toUTF8_eq_toByteArray, Array.toArray_toList]
  have hv : s.toByteArray.IsValidUTF8 := s.isValidUTF8
  rw [strFromUtf8, hb]
  simp [String.fromUTF8?, String.fromUTF8, hv]

/-- The round trip of a put. -/
private theorem decodePutKv_encode (key value : Bytes)
    (hk : key.length ≤ u32Max) (hv : value.length ≤ u32Max) :
    decodePutKv (encodeOp (.putKv key value)) = .ok (.putKv key value) := by
  simp only [decodePutKv, encodeOp, List.append_assoc, bind, Except.bind]
  rw [readU32_toLE _ _ hk]
  simp only [readBytes_append]
  rw [readU32_toLE _ _ hv]
  simp only [readBytes_self]
  rfl

/-- That of a delete of a key. -/
private theorem decodeDeleteKv_encode (key : Bytes) (hk : key.length ≤ u32Max) :
    decodeDeleteKv (encodeOp (.deleteKv key)) = .ok (.deleteKv key) := by
  simp only [decodeDeleteKv, encodeOp, bind, Except.bind]
  rw [readU32_toLE _ _ hk]
  simp only [readBytes_self]
  rfl

/-- That of an insert. -/
private theorem decodeInsertVec_encode (id : UInt64) (v : List F32)
    (hv : v.length ≤ u32Max) :
    decodeInsertVec (encodeOp (.insertVector id v)) = .ok (.insertVector id v) := by
  have hlen : ¬ (encodeOp (.insertVector id v)).length < 8 := by
    simp only [encodeOp, List.length_append, length_toLE]; omega
  have htake : (encodeOp (.insertVector id v)).take 8 = toLE 8 id.toNat := by
    simp only [encodeOp, List.append_assoc]; exact List.take_left' (length_toLE 8 _)
  have hdrop : (encodeOp (.insertVector id v)).drop 8 = toLE 4 v.length ++ encodeF32s v := by
    simp only [encodeOp, List.append_assoc]; exact List.drop_left' (length_toLE 8 _)
  have hov : ¬ v.length * 4 > u64Max := by simp only [u32Max, u64Max] at hv ⊢; omega
  have hraw : readBytes (encodeF32s v) (v.length * 4) = .ok (encodeF32s v, []) := by
    rw [← length_encodeF32s]; exact readBytes_self _
  simp only [decodeInsertVec_eq, if_neg hlen, htake, hdrop, bind, Except.bind]
  rw [readU32_toLE _ _ hv]
  simp only [if_neg hov, hraw, u64_roundtrip, decodeF32s_encodeF32s]
  rfl

/-- That of a delete of a vector. -/
private theorem decodeDeleteVec_encode (id : UInt64) :
    decodeDeleteVec (encodeOp (.deleteVector id)) = .ok (.deleteVector id) := by
  simp only [decodeDeleteVec_eq, encodeOp, length_toLE, u64_roundtrip]
  rfl

/-- That of a table. -/
private theorem decodePutCol_encode (t : String) (ipc : Bytes)
    (ht : (strBytes t).length ≤ u32Max) (hi : ipc.length ≤ u32Max) :
    decodePutCol (encodeOp (.putColumnar t ipc)) = .ok (.putColumnar t ipc) := by
  simp only [decodePutCol, encodeOp, List.append_assoc, bind, Except.bind]
  rw [readU32_toLE _ _ ht]
  simp only [readBytes_append, strFromUtf8_strBytes]
  rw [readU32_toLE _ _ hi]
  simp only [readBytes_self]
  rfl

/-- The operation codec round trip, for every operation the log accepts. -/
theorem decodeOp_encodeOp (op : WalOp) (h : (encodeOp op).length ≤ u32Max) :
    decodeOp (opTag op) (encodeOp op) = .ok op := by
  cases op with
  | putKv key value =>
    simp only [encodeOp, List.length_append, length_toLE] at h
    exact decodePutKv_encode key value (by omega) (by omega)
  | insertVector id v =>
    simp only [encodeOp, List.length_append, length_toLE, length_encodeF32s] at h
    exact decodeInsertVec_encode id v (by omega)
  | deleteKv key =>
    simp only [encodeOp, List.length_append, length_toLE] at h
    exact decodeDeleteKv_encode key (by omega)
  | deleteVector id => exact decodeDeleteVec_encode id
  | putColumnar t ipc =>
    simp only [encodeOp, List.length_append, length_toLE] at h
    exact decodePutCol_encode t ipc (by omega) (by omega)

/-! ## Frames -/

/-- An entry that fits the frame format: its sequence number is a `u64` and its
    body length a `u32`. -/
structure WalEntry.Fits (e : WalEntry) : Prop where
  seq_lt : e.seq < 2 ^ 64
  body_le : (encodeOp e.op).length ≤ u32Max

/-- Thirteen bytes of header in front of the body. -/
theorem length_frame (e : WalEntry) : (frame e).length = 13 + (encodeOp e.op).length := by
  simp only [frame, List.length_append, length_toLE, List.length_cons, List.length_nil]

/-- The frame of the first entry, then the rest. -/
theorem frames_cons (e : WalEntry) (es : List WalEntry) :
    frames (e :: es) = frame e ++ frames es := by
  simp only [frames, List.flatMap_cons]

/-- Logs are concatenated. -/
theorem frames_append (es fs : List WalEntry) : frames (es ++ fs) = frames es ++ frames fs := by
  simp only [frames, List.flatMap_append]

/-- The thirteen header bytes of a frame. -/
private def header (e : WalEntry) : Bytes :=
  toLE 8 e.seq ++ [opTag e.op] ++ toLE 4 (encodeOp e.op).length

/-- A frame is header and body. -/
private theorem frame_eq (e : WalEntry) : frame e = header e ++ encodeOp e.op := rfl

/-- A sequence number, a tag and a length. -/
private theorem length_header (e : WalEntry) : (header e).length = 13 := by
  simp only [header, List.length_append, length_toLE, List.length_cons, List.length_nil]

/-- The fields `readFrameOrTorn` takes from a buffer that starts with a header. -/
private theorem header_fields (e : WalEntry) (r : Bytes) (hfit : e.Fits) :
    ofLE ((header e ++ r).take 8) = e.seq ∧
    ((header e ++ r).drop 8).headD 0 = opTag e.op ∧
    ofLE (((header e ++ r).drop 9).take 4) = (encodeOp e.op).length := by
  have hd8 : (header e ++ r).drop 8 =
      opTag e.op :: (toLE 4 (encodeOp e.op).length ++ r) := by
    simp only [header, List.append_assoc, List.singleton_append]
    exact List.drop_left' (length_toLE 8 _)
  have hd9 : (header e ++ r).drop 9 = toLE 4 (encodeOp e.op).length ++ r := by
    rw [show 9 = 8 + 1 from rfl, ← List.drop_drop, hd8, List.drop_succ_cons, List.drop_zero]
  have ht8 : (header e ++ r).take 8 = toLE 8 e.seq := by
    simp only [header, List.append_assoc]
    exact List.take_left' (length_toLE 8 _)
  have hseq := hfit.seq_lt
  have hbody := hfit.body_le
  simp only [u32Max] at hbody
  refine ⟨?_, ?_, ?_⟩
  · rw [ht8]; exact ofLE_toLE_of_lt (by omega)
  · rw [hd8]; rfl
  · rw [hd9, List.take_left' (length_toLE 4 _)]; exact ofLE_toLE_of_lt (by omega)

/-- Reading a complete frame returns its entry and the rest of the file. -/
theorem readFrameOrTorn_frame (e : WalEntry) (rest : Bytes) (hfit : e.Fits) :
    readFrameOrTorn (frame e ++ rest) = .ok (.entry e rest) := by
  rw [frame_eq, List.append_assoc]
  obtain ⟨hseq, htag, hbody⟩ := header_fields e (encodeOp e.op ++ rest) hfit
  have hlen : ¬ (header e ++ (encodeOp e.op ++ rest)).length < 13 := by
    rw [List.length_append, length_header]; omega
  have hdrop : (header e ++ (encodeOp e.op ++ rest)).drop 13 = encodeOp e.op ++ rest :=
    List.drop_left' (length_header e)
  have hfull : ¬ (encodeOp e.op ++ rest).length < (encodeOp e.op).length := by
    rw [List.length_append]; omega
  simp only [readFrameOrTorn, frameHeader, if_neg hlen, hseq, htag, hbody, hdrop, if_neg hfull,
    List.take_left, List.drop_left, decodeOp_encodeOp e.op hfit.body_le, bind, Except.bind]

/-- A strict prefix of a frame reads as a torn tail or as end of file. -/
theorem readFrameOrTorn_torn (e : WalEntry) (n : Nat) (hfit : e.Fits)
    (hn : n < (frame e).length) :
    readFrameOrTorn ((frame e).take n) = .ok .tornTail ∨
      readFrameOrTorn ((frame e).take n) = .ok .eof := by
  have hlen : ((frame e).take n).length = n := List.length_take_of_le (Nat.le_of_lt hn)
  by_cases h13 : n < 13
  · refine Or.inr ?_
    simp only [readFrameOrTorn, frameHeader, hlen, if_pos h13]
  · refine Or.inl ?_
    have hsplit : (frame e).take n = header e ++ (encodeOp e.op).take (n - 13) := by
      rw [frame_eq, List.take_append, length_header,
        List.take_of_length_le (by rw [length_header]; omega)]
    obtain ⟨-, -, hbody⟩ := header_fields e ((encodeOp e.op).take (n - 13)) hfit
    rw [length_frame] at hn
    have hshort : (((frame e).take n).drop 13).length < (encodeOp e.op).length := by
      rw [List.length_drop, hlen]; omega
    rw [← hsplit] at hbody
    simp only [readFrameOrTorn, frameHeader, hlen, if_neg h13, hbody, if_pos hshort]

/-! ## Whole logs -/

/-- What may follow the complete frames of a log after a torn write: a strict
    prefix of one more frame (possibly nothing). -/
def TornTail (t : Bytes) : Prop :=
  ∃ e n, WalEntry.Fits e ∧ n < (frame e).length ∧ t = (frame e).take n

/-- An intact log has an empty tail. -/
theorem TornTail.nil : TornTail [] :=
  ⟨⟨0, .deleteVector 0⟩, 0, ⟨by decide, by decide⟩, by decide, rfl⟩

/-- A tail that is no frame ends the loop without an error. -/
private theorem readLoop_torn {t : Bytes} (ht : TornTail t) (fuel : Nat) :
    readLoop fuel t = .ok [] := by
  obtain ⟨e, n, hfit, hn, rfl⟩ := ht
  cases fuel with
  | zero => rfl
  | succ fuel =>
    simp only [readLoop, bind, Except.bind]
    rcases readFrameOrTorn_torn e n hfit hn with h | h <;> simp only [h]

/-- Any fuel that covers the file length reads every complete frame. -/
private theorem readLoop_frames (es : List WalEntry) {t : Bytes} (ht : TornTail t)
    (hfit : ∀ e ∈ es, e.Fits) (fuel : Nat) (hfuel : (frames es ++ t).length ≤ fuel) :
    readLoop fuel (frames es ++ t) = .ok es := by
  induction es generalizing fuel with
  | nil => exact readLoop_torn ht fuel
  | cons e es ih =>
    rw [frames_cons, List.append_assoc] at hfuel ⊢
    rw [List.length_append, length_frame] at hfuel
    cases fuel with
    | zero => omega
    | succ fuel =>
      have hes : ∀ e' ∈ es, e'.Fits := fun e' he' => hfit e' (List.mem_cons_of_mem _ he')
      have hrec := ih hes fuel (by omega)
      simp only [readLoop, bind, Except.bind,
        readFrameOrTorn_frame e _ (hfit e List.mem_cons_self), hrec]

/-- Reading a log returns its complete frames and stops at a torn tail. -/
theorem readAll_frames_append (es : List WalEntry) {t : Bytes} (ht : TornTail t)
    (hfit : ∀ e ∈ es, e.Fits) : readAll (frames es ++ t) = .ok es :=
  readLoop_frames es ht hfit _ (Nat.le_refl _)

/-- An intact log reads back entry by entry. -/
theorem readAll_frames (es : List WalEntry) (hfit : ∀ e ∈ es, e.Fits) :
    readAll (frames es) = .ok es := by
  have h := readAll_frames_append es TornTail.nil hfit
  rwa [List.append_nil] at h

/-- Cutting the frames of a log anywhere leaves complete frames and a torn tail. -/
theorem take_frames (es : List WalEntry) (hfit : ∀ e ∈ es, e.Fits) (n : Nat) :
    ∃ k t, (frames es).take n = frames (es.take k) ++ t ∧ TornTail t := by
  induction es generalizing n with
  | nil => exact ⟨0, [], by simp [frames], TornTail.nil⟩
  | cons e es ih =>
    rw [frames_cons]
    by_cases hn : n < (frame e).length
    · refine ⟨0, (frame e).take n, ?_, e, n, hfit e List.mem_cons_self, hn, rfl⟩
      rw [List.take_append_of_le_length (Nat.le_of_lt hn)]
      simp only [List.take_zero, frames, List.flatMap_nil, List.nil_append]
    · have hes : ∀ e' ∈ es, e'.Fits := fun e' he' => hfit e' (List.mem_cons_of_mem _ he')
      obtain ⟨k, t, hk, ht⟩ := ih hes (n - (frame e).length)
      refine ⟨k + 1, t, ?_, ht⟩
      rw [List.take_append, List.take_of_length_le (Nat.not_lt.mp hn), hk, List.take_succ_cons,
        frames_cons, List.append_assoc]

/-! ## What is accepted is what was written -/

/-- What `read_u32` accepted was the number it returns. -/
private theorem readU32_ok {r rest : Bytes} {n : Nat} (h : readU32 r = .ok (n, rest)) :
    r = toLE 4 n ++ rest := by
  rw [readU32_eq] at h
  split at h
  · exact nomatch h
  · simp only [Except.ok.injEq, Prod.mk.injEq] at h
    obtain ⟨rfl, rfl⟩ := h
    have hlen : (r.take 4).length = 4 := by simp; omega
    have hle := toLE_ofLE (r.take 4)
    rw [hlen] at hle
    rw [hle, List.take_append_drop]

/-- What `read_bytes` accepted stood in front. -/
private theorem readBytes_ok {r bs rest : Bytes} {n : Nat}
    (h : readBytes r n = .ok (bs, rest)) : r = bs ++ rest ∧ bs.length = n := by
  rw [readBytes_eq] at h
  split at h
  · exact nomatch h
  · simp only [Except.ok.injEq, Prod.mk.injEq] at h
    obtain ⟨rfl, rfl⟩ := h
    exact ⟨(List.take_append_drop n r).symm, by simp; omega⟩

/-- A decoder that accepts has used all bytes. -/
private theorem isEmpty_of_ok {r : Bytes} {msg : String} {op op' : WalOp}
    (h : (if (!r.isEmpty) = true then .error (.corrupt msg) else .ok op') =
      (.ok op : Except StoreError WalOp)) : r = [] ∧ op' = op := by
  split at h
  · exact nomatch h
  · rename_i hr
    simp at hr
    exact ⟨hr, Except.ok.inj h⟩

/-- Four bytes at a time lose nothing of a payload of whole floats. -/
theorem encodeF32s_decodeF32s {n : Nat} {raw : Bytes} (h : raw.length = n * 4) :
    encodeF32s (decodeF32s raw) = raw ∧ (decodeF32s raw).length = n := by
  induction n generalizing raw with
  | zero =>
    obtain rfl : raw = [] := List.length_eq_zero_iff.mp (by omega)
    exact ⟨rfl, rfl⟩
  | succ n ih =>
    rcases raw with _ | ⟨a, _ | ⟨b, _ | ⟨c, _ | ⟨d, rest⟩⟩⟩⟩
    case cons.cons.cons.cons =>
      simp only [List.length_cons] at h
      have hrest : rest.length = n * 4 := by omega
      obtain ⟨henc, hlen⟩ := ih hrest
      have hlt : ofLE [a, b, c, d] < 2 ^ 32 := by
        have := ofLE_lt [a, b, c, d]
        simpa using this
      have hbytes : toLE 4 (UInt32.ofNat (ofLE [a, b, c, d])).toNat = [a, b, c, d] := by
        rw [UInt32.toNat_ofNat_of_lt' hlt]
        exact toLE_ofLE [a, b, c, d]
      simp only [encodeF32s] at henc
      simp only [decodeF32s, encodeF32s, List.flatMap_cons, henc, hbytes, List.length_cons, hlen]
      exact ⟨rfl, trivial⟩
    all_goals
      simp only [List.length_cons, List.length_nil] at h
      omega

/-- Eight bytes are the number they encode. -/
private theorem toLE_u64 {bs : Bytes} (h : bs.length = 8) :
    toLE 8 (UInt64.ofNat (ofLE bs)).toNat = bs := by
  have hlt : ofLE bs < 2 ^ 64 := by
    have := ofLE_lt bs
    rw [h] at this
    simpa using this
  rw [UInt64.toNat_ofNat_of_lt' hlt]
  have := toLE_ofLE bs
  rwa [h] at this

/-- Text that decodes is the text of its bytes. -/
theorem strBytes_of_strFromUtf8 {bs : Bytes} {s : String} (h : strFromUtf8 bs = some s) :
    strBytes s = bs := by
  unfold strFromUtf8 String.fromUTF8? at h
  split at h
  · rw [Option.some.injEq] at h
    subst h
    simp [strBytes, String.fromUTF8]
  · exact nomatch h

/-- An accepted put is the encoding of what is returned. -/
private theorem decodePutKv_ok {body : Bytes} {op : WalOp} (h : decodePutKv body = .ok op) :
    opTag op = 1 ∧ encodeOp op = body := by
  obtain ⟨⟨klen, r₁⟩, h₁, h⟩ := Except.bind_ok h
  obtain ⟨⟨key, r₂⟩, h₂, h⟩ := Except.bind_ok h
  obtain ⟨⟨vlen, r₃⟩, h₃, h⟩ := Except.bind_ok h
  obtain ⟨⟨value, r₄⟩, h₄, h⟩ := Except.bind_ok h
  obtain ⟨rfl, rfl⟩ := isEmpty_of_ok h
  obtain ⟨rfl, rfl⟩ := readBytes_ok h₂
  obtain ⟨rfl, rfl⟩ := readBytes_ok h₄
  rw [readU32_ok h₁, readU32_ok h₃]
  exact ⟨rfl, by simp [encodeOp]⟩

/-- So is an accepted delete of a key. -/
private theorem decodeDeleteKv_ok {body : Bytes} {op : WalOp} (h : decodeDeleteKv body = .ok op) :
    opTag op = 3 ∧ encodeOp op = body := by
  obtain ⟨⟨klen, r₁⟩, h₁, h⟩ := Except.bind_ok h
  obtain ⟨⟨key, r₂⟩, h₂, h⟩ := Except.bind_ok h
  obtain ⟨rfl, rfl⟩ := isEmpty_of_ok h
  obtain ⟨rfl, rfl⟩ := readBytes_ok h₂
  rw [readU32_ok h₁]
  exact ⟨rfl, by simp [encodeOp]⟩

/-- So is an accepted insert. -/
private theorem decodeInsertVec_ok {body : Bytes} {op : WalOp}
    (h : decodeInsertVec body = .ok op) : opTag op = 2 ∧ encodeOp op = body := by
  rw [decodeInsertVec_eq] at h
  split at h
  · exact nomatch h
  rename_i hlen
  obtain ⟨⟨dim, r₁⟩, h₁, h⟩ := Except.bind_ok h
  simp only at h
  split at h
  · exact nomatch h
  obtain ⟨⟨raw, r₂⟩, h₂, h⟩ := Except.bind_ok h
  obtain ⟨rfl, rfl⟩ := isEmpty_of_ok h
  obtain ⟨rfl, hraw⟩ := readBytes_ok h₂
  obtain ⟨henc, hdim⟩ := encodeF32s_decodeF32s hraw
  have hid : toLE 8 (UInt64.ofNat (ofLE (body.take 8))).toNat = body.take 8 :=
    toLE_u64 (by simp; omega)
  have hrest : body.drop 8 = toLE 4 dim ++ raw := by simpa using readU32_ok h₁
  refine ⟨rfl, ?_⟩
  simp only [encodeOp, hid, hdim, henc, List.append_assoc, ← hrest, List.take_append_drop]

/-- So is an accepted delete of a vector. -/
private theorem decodeDeleteVec_ok {body : Bytes} {op : WalOp}
    (h : decodeDeleteVec body = .ok op) : opTag op = 4 ∧ encodeOp op = body := by
  rw [decodeDeleteVec_eq] at h
  split at h
  · exact nomatch h
  · rename_i hlen
    rw [Except.ok.injEq] at h
    subst h
    exact ⟨rfl, toLE_u64 (by omega)⟩

/-- So is an accepted table. -/
private theorem decodePutCol_ok {body : Bytes} {op : WalOp} (h : decodePutCol body = .ok op) :
    opTag op = 5 ∧ encodeOp op = body := by
  obtain ⟨⟨tlen, r₁⟩, h₁, h⟩ := Except.bind_ok h
  obtain ⟨⟨tid, r₂⟩, h₂, h⟩ := Except.bind_ok h
  simp only at h
  split at h
  · exact nomatch h
  rename_i tableId hstr
  obtain ⟨⟨ilen, r₃⟩, h₃, h⟩ := Except.bind_ok h
  obtain ⟨⟨ipc, r₄⟩, h₄, h⟩ := Except.bind_ok h
  obtain ⟨rfl, rfl⟩ := isEmpty_of_ok h
  obtain ⟨rfl, rfl⟩ := readBytes_ok h₂
  obtain ⟨rfl, rfl⟩ := readBytes_ok h₄
  rw [readU32_ok h₁, readU32_ok h₃]
  exact ⟨rfl, by simp [encodeOp, strBytes_of_strFromUtf8 hstr]⟩

/-- An accepted body is the encoding of the operation it decodes to. -/
theorem encodeOp_of_decodeOp {tag : UInt8} {body : Bytes} {op : WalOp}
    (h : decodeOp tag body = .ok op) : opTag op = tag ∧ encodeOp op = body := by
  unfold decodeOp at h
  split at h
  · rename_i htag
    exact htag ▸ decodePutKv_ok h
  split at h
  · rename_i htag
    exact htag ▸ decodeInsertVec_ok h
  split at h
  · rename_i htag
    exact htag ▸ decodeDeleteKv_ok h
  split at h
  · rename_i htag
    exact htag ▸ decodeDeleteVec_ok h
  split at h
  · rename_i htag
    exact htag ▸ decodePutCol_ok h
  · exact nomatch h

/-- An accepted frame is the frame of the entry it reads as. -/
theorem frame_of_readFrameOrTorn {r rest : Bytes} {e : WalEntry}
    (h : readFrameOrTorn r = .ok (.entry e rest)) : r = frame e ++ rest ∧ e.Fits := by
  unfold readFrameOrTorn at h
  split at h
  · exact nomatch h
  rename_i hlen
  dsimp only at h
  split at h
  · exact nomatch h
  rename_i hbody
  have hthirteen : frameHeader = 13 := rfl
  obtain ⟨op, hop, h⟩ := Except.bind_ok h
  rw [hthirteen] at hlen hbody hop h
  simp only [Except.ok.injEq, FrameRead.entry.injEq] at h
  obtain ⟨rfl, rfl⟩ := h
  obtain ⟨htag, henc⟩ := encodeOp_of_decodeOp hop
  have hblen : (encodeOp op).length = ofLE ((r.drop 9).take 4) := by
    rw [henc, List.length_take]
    omega
  -- the four pieces of the header
  have hseq : toLE 8 (ofLE (r.take 8)) = r.take 8 := by
    have hle := toLE_ofLE (r.take 8)
    rwa [show (r.take 8).length = 8 by simp; omega] at hle
  have hfour : toLE 4 (ofLE ((r.drop 9).take 4)) = (r.drop 9).take 4 := by
    have hle := toLE_ofLE ((r.drop 9).take 4)
    rwa [show ((r.drop 9).take 4).length = 4 by simp; omega] at hle
  have hhead : r.drop 8 = (r.drop 8).headD 0 :: r.drop 9 := by
    rw [← List.drop_drop (i := 1) (j := 8)]
    cases hd : r.drop 8 with
    | nil =>
      have := List.drop_eq_nil_iff.mp hd
      omega
    | cons x xs => rfl
  -- the bytes are put together again from the pieces that were read
  constructor
  · have hfields : frame ⟨ofLE (r.take 8), op⟩ = r.take 8 ++ ((r.drop 8).headD 0 ::
        ((r.drop 9).take 4 ++ (r.drop 13).take (ofLE ((r.drop 9).take 4)))) := by
      simp only [frame, htag, hblen, hseq, hfour, List.append_assoc, List.nil_append,
        List.cons_append]
      rw [henc]
    have hnine : r.drop 9 = (r.drop 9).take 4 ++ r.drop 13 := by
      conv => lhs; rw [← List.take_append_drop 4 (r.drop 9), List.drop_drop]
    calc r = r.take 8 ++ r.drop 8 := (List.take_append_drop 8 r).symm
      _ = r.take 8 ++ ((r.drop 8).headD 0 :: ((r.drop 9).take 4 ++ r.drop 13)) := by
        rw [← hnine, ← hhead]
      _ = _ := by
        rw [hfields]
        simp only [List.append_assoc, List.cons_append, List.take_append_drop]
  · constructor
    · have hlt := ofLE_lt (r.take 8)
      rw [show (r.take 8).length = 8 by simp; omega] at hlt
      simpa using hlt
    · have hlt := ofLE_lt ((r.drop 9).take 4)
      rw [show ((r.drop 9).take 4).length = 4 by simp; omega] at hlt
      simp only [u32Max, hblen]
      omega

/-- What the loop accepts are frames and a tail. -/
private theorem readLoop_ok {fuel : Nat} {r : Bytes} {es : List WalEntry}
    (h : readLoop fuel r = .ok es) : ∃ t, r = frames es ++ t ∧ ∀ e ∈ es, e.Fits := by
  induction fuel generalizing r es with
  | zero =>
    obtain rfl := Except.ok.inj h
    exact ⟨r, rfl, by simp⟩
  | succ fuel ih =>
    obtain ⟨read, hread, h⟩ := Except.bind_ok h
    cases read with
    | entry e rest =>
      obtain ⟨es', hes, h⟩ := Except.bind_ok h
      obtain rfl := Except.ok.inj h
      obtain ⟨rfl, hfit⟩ := frame_of_readFrameOrTorn hread
      obtain ⟨t, rfl, hfits⟩ := ih hes
      exact ⟨t, by rw [frames_cons, List.append_assoc], by simpa using ⟨hfit, hfits⟩⟩
    | tornTail =>
      obtain rfl := Except.ok.inj h
      exact ⟨r, rfl, by simp⟩
    | eof =>
      obtain rfl := Except.ok.inj h
      exact ⟨r, rfl, by simp⟩

/-- What `read_all` returns is what stands at the beginning of the file. -/
theorem frames_of_readAll {log : Bytes} {es : List WalEntry} (h : readAll log = .ok es) :
    ∃ t, log = frames es ++ t ∧ ∀ e ∈ es, e.Fits := readLoop_ok h

end FusionStore
