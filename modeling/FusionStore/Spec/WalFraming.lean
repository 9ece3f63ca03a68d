import FusionStore.Spec.WalCodecCorrect

/-!
# The log format is exact

The decoder of operations slices its input only where the input has bytes, and what it
accepts is what the encoder writes.  A log file that was cut anywhere reads as the
frames that lie before the cut; whatever the bytes are, what `read_all` leaves unread
at the end is not a whole frame.

## Key results

- `opCodec_exact`: the operation codec in both directions
- `framing_exact`: cut logs, and logs of arbitrary bytes
-/

namespace FusionStore

open LittleEndian

/-! ### No slice is out of range -/

/-- A result. -/
theorem returns_ok {α : Type} (a : α) : Returns (.ok a : Except StoreError α) := by
  intro msg h
  simp at h

/-- An error the source returns. -/
theorem returns_corrupt {α : Type} (text : String) :
    Returns (.error (.corrupt text) : Except StoreError α) := by
  intro msg h
  simp at h

/-- One step after another. -/
theorem Returns.bind {α β : Type} {x : Except StoreError α} {f : α → Except StoreError β}
    (hx : Returns x) (hf : ∀ a, Returns (f a)) : Returns (x >>= f) := by
  cases x with
  | error err =>
    intro msg h
    -- an error passes through unchanged
    have herr : (.error err : Except StoreError β) = .error (.panicked msg) := h
    simp only [Except.error.injEq] at herr
    exact hx msg (by rw [herr])
  | ok a => exact hf a

/-- A number. -/
theorem returns_readU32 (r : Bytes) : Returns (readU32 r) := by
  rw [readU32_eq]
  split
  · exact returns_corrupt _
  · exact returns_ok _

/-- A byte string. -/
theorem returns_readBytes (r : Bytes) (len : Nat) : Returns (readBytes r len) := by
  rw [readBytes_eq]
  split
  · exact returns_corrupt _
  · exact returns_ok _

/-- The last check of a decoder: nothing is left over. -/
private theorem returns_trailing (r : Bytes) (text : String) (op : WalOp) :
    Returns (if !r.isEmpty then .error (.corrupt text) else .ok op : Except StoreError WalOp) := by
  split
  · exact returns_corrupt _
  · exact returns_ok _

/-- A put. -/
private theorem returns_decodePutKv (body : Bytes) : Returns (decodePutKv body) := by
  refine (returns_readU32 _).bind fun (klen, r) => ?_
  refine (returns_readBytes r klen).bind fun (key, r) => ?_
  refine (returns_readU32 r).bind fun (vlen, r) => ?_
  exact (returns_readBytes r vlen).bind fun (value, r) => returns_trailing _ _ _

/-- An insert. -/
private theorem returns_decodeInsertVec (body : Bytes) : Returns (decodeInsertVec body) := by
  rw [decodeInsertVec_eq]
  split
  · exact returns_corrupt _
  refine (returns_readU32 _).bind fun (dim, r) => ?_
  dsimp only
  split
  · exact returns_corrupt _
  exact (returns_readBytes r _).bind fun (raw, r) => returns_trailing _ _ _

/-- A delete of a key. -/
private theorem returns_decodeDeleteKv (body : Bytes) : Returns (decodeDeleteKv body) := by
  refine (returns_readU32 _).bind fun (klen, r) => ?_
  exact (returns_readBytes r klen).bind fun (key, r) => returns_trailing _ _ _

/-- A delete of a vector. -/
private theorem returns_decodeDeleteVec (body : Bytes) : Returns (decodeDeleteVec body) := by
  rw [decodeDeleteVec_eq]
  split
  · exact returns_corrupt _
  · exact returns_ok _

/-- A table. -/
private theorem returns_decodePutCol (body : Bytes) : Returns (decodePutCol body) := by
  refine (returns_readU32 _).bind fun (tlen, r) => ?_
  refine (returns_readBytes r tlen).bind fun (tid, r) => ?_
  dsimp only
  split
  · exact returns_corrupt _
  refine (returns_readU32 r).bind fun (ilen, r) => ?_
  exact (returns_readBytes r ilen).bind fun (ipc, r) => returns_trailing _ _ _

/-- No body makes the decoder slice outside of it. -/
theorem returns_decodeOp (tag : UInt8) (body : Bytes) : Returns (decodeOp tag body) := by
  unfold decodeOp
  split
  · exact returns_decodePutKv body
  split
  · exact returns_decodeInsertVec body
  split
  · exact returns_decodeDeleteKv body
  split
  · exact returns_decodeDeleteVec body
  split
  · exact returns_decodePutCol body
  · exact returns_corrupt _

/-- Decoding undoes encoding for every operation the log accepts; and of all tags and
    bodies, only those that encoding produces are accepted. -/
theorem opCodec_exact :
    (∀ op, (encodeOp op).length ≤ u32Max → decodeOp (opTag op) (encodeOp op) = .ok op) ∧
    ∀ tag body, Returns (decodeOp tag body) ∧
      ∀ op, decodeOp tag body = .ok op → opTag op = tag ∧ encodeOp op = body := by
  refine ⟨decodeOp_encodeOp, fun tag body => ⟨returns_decodeOp tag body, fun op h => ?_⟩⟩
  exact encodeOp_of_decodeOp h

/-! ### Cut logs -/

/-- The frames that lie before the cut are the ones that are read. -/
private theorem readAll_cut_frames (es : List WalEntry) (hfit : ∀ e ∈ es, e.Fits) (k : Nat) :
    ∃ pre, readAll ((frames es).take k) = .ok pre ∧ pre <+: es ∧ (frames pre).length ≤ k ∧
      ∀ pre', pre' <+: es → (frames pre').length ≤ k → pre' <+: pre := by
  induction es generalizing k with
  | nil =>
    refine ⟨[], by simp [frames, readAll, readLoop], List.nil_prefix, by simp [frames], ?_⟩
    intro pre' hpre _
    exact hpre
  | cons e es ih =>
    have hes : ∀ e' ∈ es, e'.Fits := fun e' he' => hfit e' (List.mem_cons_of_mem _ he')
    by_cases hk : k < (frame e).length
    · -- the cut is inside the first frame
      have htake : (frames (e :: es)).take k = (frame e).take k := by
        rw [frames_cons, List.take_append_of_le_length (Nat.le_of_lt hk)]
      have htorn : TornTail ((frame e).take k) := ⟨e, k, hfit e List.mem_cons_self, hk, rfl⟩
      have hread := readAll_frames_append [] htorn (by simp)
      refine ⟨[], by rw [htake]; exact hread, List.nil_prefix, by simp [frames], ?_⟩
      intro pre' hpre hlen
      cases pre' with
      | nil => exact List.nil_prefix
      | cons e' pre' =>
        obtain ⟨rfl, -⟩ := List.cons_prefix_cons.mp hpre
        rw [frames_cons, List.length_append] at hlen
        omega
    · -- the first frame is whole, and the rest is cut
      obtain ⟨pre, hread, hpre, hlen, hmax⟩ := ih hes (k - (frame e).length)
      have htake : (frames (e :: es)).take k =
          frame e ++ (frames es).take (k - (frame e).length) := by
        rw [frames_cons, List.take_append, List.take_of_length_le (Nat.not_lt.mp hk)]
      refine ⟨e :: pre, ?_, List.cons_prefix_cons.mpr ⟨rfl, hpre⟩, ?_, ?_⟩
      · obtain ⟨n, t, hn, ht⟩ := take_frames es hes (k - (frame e).length)
        have hfits : ∀ e' ∈ es.take n, e'.Fits := fun e' he' => hes e' (List.mem_of_mem_take he')
        have hpre_eq : pre = es.take n := by
          rw [hn, readAll_frames_append _ ht hfits] at hread
          exact (Except.ok.inj hread).symm
        rw [htake, hn, ← List.append_assoc, ← frames_cons, hpre_eq]
        refine readAll_frames_append _ ht ?_
        intro e' he'
        rcases List.mem_cons.mp he' with rfl | he'
        · exact hfit _ List.mem_cons_self
        · exact hfits e' he'
      · rw [frames_cons, List.length_append]
        omega
      · -- no longer list of whole frames fits
        intro pre' hpre' hlen'
        cases pre' with
        | nil => exact List.nil_prefix
        | cons e' pre' =>
          obtain ⟨rfl, htail⟩ := List.cons_prefix_cons.mp hpre'
          rw [frames_cons, List.length_append] at hlen'
          exact List.cons_prefix_cons.mpr ⟨rfl, hmax pre' htail (by omega)⟩

/-! ### Arbitrary bytes -/

/-- Bytes that end inside a frame: too few for a header, or a header that announces a
    longer body than is left. -/
def IncompleteFrame (t : Bytes) : Prop :=
  t.length < frameHeader ∨ t.length - frameHeader < ofLE ((t.drop 9).take 4)

/-- Where the reader sees a tail, the bytes are no whole frame. -/
private theorem incomplete_of_read {r : Bytes}
    (h : readFrameOrTorn r = .ok .eof ∨ readFrameOrTorn r = .ok .tornTail) :
    IncompleteFrame r := by
  unfold readFrameOrTorn at h
  split at h
  · rename_i hlen
    exact Or.inl hlen
  · simp only at h
    split at h
    · rename_i hbody
      rw [List.length_drop] at hbody
      exact Or.inr hbody
    · -- a whole frame reads as an entry or as an error
      rcases h with h | h <;> obtain ⟨op, -, hop⟩ := Except.bind_ok h <;> simp at hop

/-- Reading an entry consumes its frame. -/
private theorem length_rest_lt {r rest : Bytes} {e : WalEntry}
    (h : readFrameOrTorn r = .ok (.entry e rest)) : rest.length < r.length := by
  obtain ⟨rfl, -⟩ := frame_of_readFrameOrTorn h
  rw [List.length_append, length_frame]
  omega

/-- The loop ends by itself: fuel beyond the length of the file changes nothing. -/
theorem readLoop_fuel {m n : Nat} {r : Bytes} (hm : r.length ≤ m) (hn : r.length ≤ n) :
    readLoop m r = readLoop n r := by
  induction m generalizing n r with
  | zero =>
    obtain rfl : r = [] := List.length_eq_zero_iff.mp (by omega)
    cases n with
    | zero => rfl
    | succ n => rfl
  | succ m ih =>
    cases n with
    | zero =>
      obtain rfl : r = [] := List.length_eq_zero_iff.mp (by omega)
      rfl
    | succ n =>
      simp only [readLoop, bind, Except.bind]
      cases hread : readFrameOrTorn r with
      | error err => rfl
      | ok read =>
        cases read with
        | entry e rest =>
          have hlt := length_rest_lt hread
          have hrec : readLoop m rest = readLoop n rest := ih (by omega) (by omega)
          simp only [hrec]
        | tornTail => rfl
        | eof => rfl

/-- With fuel for all bytes the loop stops only at such a tail. -/
private theorem readLoop_rest {fuel : Nat} {r : Bytes} {es : List WalEntry}
    (hfuel : r.length ≤ fuel) (h : readLoop fuel r = .ok es) :
    ∃ t, r = frames es ++ t ∧ IncompleteFrame t := by
  induction fuel generalizing r es with
  | zero =>
    obtain rfl : r = [] := List.length_eq_zero_iff.mp (by omega)
    obtain rfl := Except.ok.inj h
    exact ⟨[], rfl, Or.inl (by decide)⟩
  | succ fuel ih =>
    obtain ⟨read, hread, h⟩ := Except.bind_ok h
    cases read with
    | entry e rest =>
      obtain ⟨es', hes, h⟩ := Except.bind_ok h
      obtain rfl := Except.ok.inj h
      have hlt := length_rest_lt hread
      obtain ⟨rfl, -⟩ := frame_of_readFrameOrTorn hread
      obtain ⟨t, rfl, ht⟩ := ih (by omega) hes
      exact ⟨t, by rw [frames_cons, List.append_assoc], ht⟩
    | tornTail =>
      obtain rfl := Except.ok.inj h
      exact ⟨r, rfl, incomplete_of_read (Or.inr hread)⟩
    | eof =>
      obtain rfl := Except.ok.inj h
      exact ⟨r, rfl, incomplete_of_read (Or.inl hread)⟩

/-- A log cut after `k` bytes reads as the longest list of entries whose frames lie within
    them.  On any bytes the reader comes to an end, and if it accepts them, they are the
    frames of what it returns and an incomplete frame. -/
theorem framing_exact :
    (∀ es : List WalEntry, (∀ e ∈ es, e.Fits) → ∀ k, ∃ pre,
      readAll ((frames es).take k) = .ok pre ∧ pre <+: es ∧ (frames pre).length ≤ k ∧
        ∀ pre', pre' <+: es → (frames pre').length ≤ k → pre' <+: pre) ∧
    ∀ b : Bytes, (∀ fuel, b.length ≤ fuel → readLoop fuel b = readAll b) ∧
      ∀ es, readAll b = .ok es → ∃ t, b = frames es ++ t ∧ IncompleteFrame t := by
  refine ⟨readAll_cut_frames, fun b => ⟨fun fuel hfuel => ?_, fun es h => ?_⟩⟩
  · exact readLoop_fuel hfuel (Nat.le_refl _)
  · exact readLoop_rest (Nat.le_refl _) h

end FusionStore
