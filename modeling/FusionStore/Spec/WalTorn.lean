import FusionStore.Spec.WalSeq

/-!
# Torn writes

A kill or a failed `write_all` leaves part of what was being written at the end of
`wal.log`.  Reading stops in front of it, but nothing removes it: the next append goes
behind the torn bytes, unless a `truncate_to` that finds an entry has rewritten the file
before.  A torn batch leaves the frames in front of the cut.
-/

namespace FusionStore

open LittleEndian

/-! ## After a torn append -/

/-- What is done with the log later. -/
inductive LogStep where
  | append (op : WalOp)
  | truncateTo (appliedSeq : Nat)

/-- Whether a step writes a frame. -/
def LogStep.isAppend : LogStep → Bool
  | .append _ => true
  | .truncateTo _ => false

namespace Wal

/-- The log after an append that wrote `n` bytes of its frame: the process was killed and
    the log is opened again, or `write_all` failed and the log stays open. -/
def torn (w : Wal) (op : WalOp) (n : Nat) (reopened : Bool) : Except StoreError Wal :=
  let d := { w.dir with log := w.dir.log ++ (frame ⟨w.nextSeq, op⟩).take n }
  if reopened then Wal.open d else .ok ⟨d, w.nextSeq⟩

/-- `read_all` after the steps returns the entries `es` and the ones appended since, in
    order, less those that were truncated. -/
def ReadsBack (w : Wal) (es : List WalEntry) : List LogStep → Prop
  | [] => readAll w.dir.log = .ok es
  | .append op :: steps =>
    match w.append op with
    | .ok (seq, w') => ReadsBack w' (es ++ [⟨seq, op⟩]) steps
    | .error _ => ReadsBack w es steps
  | .truncateTo appliedSeq :: steps =>
    ∃ w', w.truncateTo appliedSeq = .ok w' ∧
      ReadsBack w' (es.filter fun e => appliedSeq < e.seq) steps

variable {w : Wal} {es : List WalEntry}

/-- A truncation of a log with an entry in it removes a torn tail. -/
theorem truncateTo_torn {t : Bytes} (hlog : w.dir.log = frames es ++ t) (ht : TornTail t)
    (hfit : ∀ e ∈ es, e.Fits) (hne : es ≠ []) (appliedSeq : Nat) :
    w.truncateTo appliedSeq = .ok { w with
      dir := { w.dir with log := frames (es.filter fun e => appliedSeq < e.seq) } } := by
  have hread : readAll w.dir.log = .ok es := by
    rw [hlog, readAll_frames_append es ht hfit]
  have hkeep : w.truncateKeep appliedSeq =
      .ok (some (es.filter fun e => appliedSeq < e.seq)) := by
    unfold truncateKeep
    simp only [hread, bind, Except.bind]
    rw [if_neg (by simp [hne])]
  unfold truncateTo
  simp only [hkeep, bind, Except.bind]

/-- A truncation of a log without a whole frame returns early. -/
theorem truncateTo_empty (ht : TornTail w.dir.log) (appliedSeq : Nat) :
    w.truncateTo appliedSeq = .ok w := by
  have hread : readAll w.dir.log = .ok [] := by
    simpa [frames] using readAll_frames_append [] ht (by simp)
  have hkeep : w.truncateKeep appliedSeq = .ok none := by
    unfold truncateKeep
    simp [hread, bind, Except.bind]
  unfold truncateTo
  simp only [hkeep, bind, Except.bind]

/-- A log of whole frames reads back for ever. -/
theorem readsBack_frames (hlog : w.dir.log = frames es) (hfit : ∀ e ∈ es, e.Fits)
    (steps : List LogStep) (hseq : w.nextSeq + steps.countP LogStep.isAppend ≤ 2 ^ 64) :
    w.ReadsBack es steps := by
  -- by induction on the steps; the file consists of whole frames throughout
  induction steps generalizing w es with
  | nil =>
    unfold ReadsBack
    rw [hlog, readAll_frames es hfit]
  | cons step steps ih =>
    cases step with
    | append op =>
      rw [List.countP_cons_of_pos (by rfl)] at hseq
      unfold ReadsBack
      -- an operation too long for its length field is refused and leaves the file alone
      by_cases hbig : (encodeOp op).length > u32Max
      · simp only [append, if_pos hbig]
        exact ih hlog hfit (by omega)
      · simp only [append, if_neg hbig]
        refine ih ?_ ?_ (by simp only; omega)
        · simp only [hlog, frames_append, frames_cons, List.append_cancel_left_eq]
          simp [frames]
        · intro e he
          simp only [List.mem_append, List.mem_singleton] at he
          obtain he | rfl := he
          · exact hfit e he
          · exact ⟨by simp only; omega, by simp only; omega⟩
    | truncateTo appliedSeq =>
      rw [List.countP_cons_of_neg (by simp [LogStep.isAppend])] at hseq
      unfold ReadsBack
      -- an empty log is not rewritten
      by_cases hne : es = []
      · subst hne
        have ht : TornTail w.dir.log := by
          rw [hlog]
          exact TornTail.nil
        exact ⟨w, truncateTo_empty ht appliedSeq, ih hlog (by simp) hseq⟩
      · refine ⟨_, truncateTo_torn (t := []) (by simp [hlog]) TornTail.nil hfit hne appliedSeq, ?_⟩
        exact ih rfl (fun e he => hfit e (List.mem_of_mem_filter he)) hseq

end Wal

/-! ### A frame that does not survive a torn one -/

/-- Twenty bytes leave some byte out. -/
private theorem exists_byte_notMem {bs : Bytes} (h : bs.length ≤ 20) : ∃ b : UInt8, b ∉ bs := by
  by_contra hall
  have hsub : (List.range 21).map UInt8.ofNat ⊆ bs := by
    intro b _
    exact not_not.mp fun hb => hall ⟨b, hb⟩
  have hnodup : ((List.range 21).map UInt8.ofNat).Nodup := by decide
  have hle := hnodup.length_le_of_subset hsub
  simp only [List.length_map, List.length_range] at hle
  omega

/-- The frame of a delete up to its last byte. -/
private def deleteHead (seq : Nat) : Bytes :=
  toLE 8 seq ++ [4, 8, 0, 0, 0, 0, 0, 0, 0, 0, 0, 0]

/-- A delete's frame without its last byte. -/
private theorem length_deleteHead (seq : Nat) : (deleteHead seq).length = 20 := by
  simp [deleteHead]

/-- A delete whose frame ends in `b`. -/
private def deleteWith (b : UInt8) : WalOp := .deleteVector (UInt64.ofNat (b.toNat * 256 ^ 7))

/-- The frame of a delete, split before its last byte. -/
private theorem frame_deleteWith (seq : Nat) (b : UInt8) :
    frame ⟨seq, deleteWith b⟩ = deleteHead seq ++ [b] := by
  have hb := b.toNat_lt
  have hid : (UInt64.ofNat (b.toNat * 256 ^ 7)).toNat = b.toNat * 256 ^ 7 :=
    UInt64.toNat_ofNat_of_lt' (by simp [UInt64.size]; omega)
  have hbytes : toLE 8 (b.toNat * 256 ^ 7) = [0, 0, 0, 0, 0, 0, 0, b] := by
    have hle : ofLE [0, 0, 0, 0, 0, 0, 0, b] = b.toNat * 256 ^ 7 := by
      simp [ofLE]
      omega
    rw [← hle]
    exact toLE_ofLE [0, 0, 0, 0, 0, 0, 0, b]
  simp only [frame, deleteWith, encodeOp, opTag, hid, hbytes, deleteHead, List.length_cons,
    List.length_nil, List.append_assoc]
  rfl

/-- Some delete does not read back behind any strict, non-empty prefix of a frame. -/
private theorem exists_lost_delete (seq : Nat) (hseq : seq < 2 ^ 64) : ∃ op,
    (encodeOp op).length ≤ u32Max ∧ ∀ x n t, WalEntry.Fits x → 0 < n → n < (frame x).length →
      (frame x).take n ++ frame ⟨seq, op⟩ ≠ frame ⟨seq, op⟩ ++ t := by
  -- a delete of an id whose last byte occurs nowhere before it
  obtain ⟨b, hb⟩ := exists_byte_notMem (length_deleteHead seq).le
  have hfit : WalEntry.Fits ⟨seq, deleteWith b⟩ := ⟨hseq, by simp [deleteWith, encodeOp, u32Max]⟩
  refine ⟨deleteWith b, hfit.body_le, fun x n t hx hpos hn heq => ?_⟩
  have hlen : (frame ⟨seq, deleteWith b⟩).length = 21 := by
    simp [frame_deleteWith, length_deleteHead]
  have htake : ((frame x).take n).length = n := by
    rw [List.length_take]
    omega
  by_cases hcut : n < 21
  · -- the last byte would be one of those before it
    have hget : ((frame x).take n ++ frame ⟨seq, deleteWith b⟩)[20]? =
        (frame ⟨seq, deleteWith b⟩ ++ t)[20]? := by rw [heq]
    rw [List.getElem?_append_right (by omega), htake, frame_deleteWith,
      List.getElem?_append_left (by simp [length_deleteHead]; omega),
      List.append_assoc, List.getElem?_append_right (by simp [length_deleteHead]),
      length_deleteHead] at hget
    simp only [Nat.sub_self, List.singleton_append, List.getElem?_cons_zero] at hget
    exact hb (List.mem_of_getElem? hget)
  · -- the torn frame would be the whole frame of the delete
    have hprefix : frame ⟨seq, deleteWith b⟩ = (frame x).take 21 := by
      have h21 := congrArg (List.take 21) heq
      rw [List.take_append_of_le_length (by omega), List.take_take, Nat.min_eq_left (by omega),
        ← hlen, List.take_left'  rfl] at h21
      rw [← hlen]
      exact h21.symm
    have hx1 := readFrameOrTorn_frame x [] hx
    have hx2 : readFrameOrTorn (frame x ++ []) =
        .ok (.entry ⟨seq, deleteWith b⟩ ((frame x).drop 21)) := by
      rw [List.append_nil, ← readFrameOrTorn_frame _ _ hfit, hprefix, List.take_append_drop]
    rw [hx1] at hx2
    injection hx2 with hx2
    injection hx2 with hentry hrest
    have := List.drop_eq_nil_iff.mp hrest.symm
    omega

/-! ### The exact condition -/

namespace Wal

variable {w : Wal} {es : List WalEntry}

/-- Truncating a log without whole frames leaves the file as it is. -/
theorem readsBack_truncations_of_empty (ht : TornTail w.dir.log) (before : List Nat)
    (steps : List LogStep) :
    w.ReadsBack [] (before.map .truncateTo ++ steps) ↔ w.ReadsBack [] steps := by
  induction before with
  | nil => rfl
  | cons a before ih =>
    rw [List.map_cons, List.cons_append, ReadsBack, truncateTo_empty ht a]
    simp only [Except.ok.injEq, exists_eq_left', List.filter_nil]
    exact ih

/-- Truncations first, then appends, behind the first `n` bytes of a frame: everything
    reads back exactly if there are no such bytes, or if a truncation finds an entry. -/
theorem readsBack_torn_iff {x : WalEntry} (hx : x.Fits) {n : Nat} (hn : n < (frame x).length)
    (hlog : w.dir.log = frames es ++ (frame x).take n) (hfit : ∀ e ∈ es, e.Fits)
    (hseq : w.nextSeq < 2 ^ 64) (before : List Nat) :
    (∀ steps, w.nextSeq + steps.countP LogStep.isAppend ≤ 2 ^ 64 →
      w.ReadsBack es (before.map .truncateTo ++ steps)) ↔ n = 0 ∨ (before ≠ [] ∧ es ≠ []) := by
  have ht : TornTail ((frame x).take n) := ⟨x, n, hx, hn, rfl⟩
  have hcount : ∀ l : List Nat, (l.map LogStep.truncateTo).countP LogStep.isAppend = 0 := by
    intro l
    simp [List.countP_eq_zero, LogStep.isAppend]
  constructor
  · -- forwards: append the delete that the torn bytes would swallow
    intro hall
    by_contra hcond
    obtain ⟨hn0, hrest⟩ := not_or.mp hcond
    obtain ⟨op, hbody, hlost⟩ := exists_lost_delete w.nextSeq hseq
    have hreads := hall [.append op] (by simp [LogStep.isAppend]; omega)
    -- the truncations have not touched the file
    have hone : w.ReadsBack es [.append op] := by
      by_cases hes : es = []
      · subst hes
        have htorn : TornTail w.dir.log := by
          rw [hlog]
          exact ht
        exact (readsBack_truncations_of_empty htorn before _).mp hreads
      · obtain rfl : before = [] := by
          by_contra hne
          exact hrest ⟨hne, hes⟩
        exact hreads
    simp only [ReadsBack, append, if_neg (Nat.not_lt.mpr hbody)] at hone
    obtain ⟨t, heq, -⟩ := frames_of_readAll hone
    rw [hlog, frames_append, frames_cons, List.append_assoc, List.append_assoc,
      List.append_cancel_left_eq] at heq
    exact hlost x n t hx (by omega) hn (by simpa [frames] using heq)
  · -- backwards: nothing is torn, or the first truncation writes the file anew
    rintro (rfl | ⟨hbefore, hes⟩) steps hsteps
    · refine readsBack_frames (by simpa using hlog) hfit _ ?_
      rw [List.countP_append, hcount]
      omega
    · obtain ⟨a, before, rfl⟩ := List.exists_cons_of_ne_nil hbefore
      rw [List.map_cons, List.cons_append, ReadsBack]
      refine ⟨_, truncateTo_torn hlog ht hfit hes a, ?_⟩
      refine readsBack_frames rfl (fun e he => hfit e (List.mem_of_mem_filter he)) _ ?_
      rw [List.countP_append, hcount]
      simp only
      omega

/-- The largest number of a log is below the next one. -/
theorem foldl_max_lt {es : List WalEntry} {m next : Nat} (hm : m < next)
    (h : ∀ e ∈ es, e.seq < next) : es.foldl (fun m e => max m e.seq) m < next := by
  induction es generalizing m with
  | nil => exact hm
  | cons e es ih =>
    refine ih ?_ fun e' he' => h e' (List.mem_cons_of_mem _ he')
    exact Nat.max_lt.mpr ⟨hm, h e List.mem_cons_self⟩

/-- After `n` bytes of an append have reached a log of whole frames, and truncations up to
    the numbers in `before`, all that is logged later reads back exactly if no byte had
    reached the file, or if the first truncation found an entry. -/
theorem torn_readsBack_iff (w : Wal) (es : List WalEntry) (hlog : w.dir.log = frames es)
    (hfit : ∀ e ∈ es, e.Fits ∧ e.seq < w.nextSeq) (op : WalOp)
    (hop : WalEntry.Fits ⟨w.nextSeq, op⟩) (hpos : 0 < w.nextSeq) (n : Nat)
    (hn : n < (frame ⟨w.nextSeq, op⟩).length) (reopened : Bool) (before : List Nat) :
    ∃ w', w.torn op n reopened = .ok w' ∧
      ((∀ steps, w'.nextSeq + steps.countP LogStep.isAppend ≤ 2 ^ 64 →
        w'.ReadsBack es (before.map .truncateTo ++ steps)) ↔
        n = 0 ∨ (before ≠ [] ∧ es ≠ [])) := by
  have hfits : ∀ e ∈ es, e.Fits := fun e he => (hfit e he).1
  have hnext := hop.seq_lt
  cases reopened with
  | false =>
    have hkept : w.torn op n false = .ok
        ⟨{ w.dir with log := frames es ++ (frame ⟨w.nextSeq, op⟩).take n }, w.nextSeq⟩ := by
      simp [torn, hlog]
    refine ⟨_, hkept, readsBack_torn_iff hop hn rfl hfits ?_ before⟩
    exact hnext
  | true =>
    have hread : readAll (frames es ++ (frame ⟨w.nextSeq, op⟩).take n) = .ok es :=
      readAll_frames_append es ⟨_, n, hop, hn, rfl⟩ hfits
    have hopen : w.torn op n true = .ok
        ⟨{ w.dir with log := frames es ++ (frame ⟨w.nextSeq, op⟩).take n },
          es.foldl (fun m e => max m e.seq) 0 + 1⟩ := by
      simp [torn, Wal.open, maxSeq, hlog, hread, bind, Except.bind, pure, Except.pure]
    have hlt := foldl_max_lt hpos fun e he => (hfit e he).2
    exact ⟨_, hopen, readsBack_torn_iff hop hn rfl hfits (by simp only at hnext ⊢; omega) before⟩

/-- An append torn after five bytes, one truncation, then two more appends. -/
theorem torn_readsBack_of_truncation : ∃ w' : Wal,
    (⟨⟨frames [⟨1, .deleteVector 7⟩], none⟩, 2⟩ : Wal).torn (.deleteVector 8) 5 true = .ok w' ∧
    w'.ReadsBack [⟨1, .deleteVector 7⟩]
      [.truncateTo 0, .append (.deleteVector 8), .append (.deleteVector 9)] := by
  obtain ⟨w', hw, hiff⟩ := torn_readsBack_iff ⟨⟨frames [⟨1, .deleteVector 7⟩], none⟩, 2⟩
    [⟨1, .deleteVector 7⟩] rfl (by simpa using ⟨by decide, by decide⟩) (.deleteVector 8)
    ⟨by decide, by decide⟩ (by decide) 5 (by decide) true [0]
  refine ⟨w', hw, hiff.mpr (Or.inr ⟨by simp, by simp⟩)
    [.append (.deleteVector 8), .append (.deleteVector 9)] ?_⟩
  have hopen : (⟨⟨frames [⟨1, .deleteVector 7⟩], none⟩, 2⟩ : Wal).torn (.deleteVector 8) 5 true =
      .ok ⟨⟨frames [⟨1, .deleteVector 7⟩] ++ (frame ⟨2, .deleteVector 8⟩).take 5, none⟩, 2⟩ := rfl
  obtain rfl := Except.ok.inj (hw.symm.trans hopen)
  decide

/-- Behind five torn bytes the retry of the append makes the whole log unreadable. -/
theorem log_unreadable_after_torn_append : ∃ w' : Wal,
    (⟨⟨frames [⟨1, .deleteVector 7⟩], none⟩, 2⟩ : Wal).torn (.deleteVector 8) 5 true = .ok w' ∧
    readAll w'.dir.log = .ok [⟨1, .deleteVector 7⟩] ∧
    ∃ w'', w'.append (.deleteVector 8) = .ok (2, w'') ∧
      readAll w''.dir.log = .error (.corrupt "unknown wal op tag 0") ∧
      ¬w'.ReadsBack [⟨1, .deleteVector 7⟩] [.append (.deleteVector 8)] := by
  refine ⟨_, rfl, by decide, _, rfl, by decide +kernel, ?_⟩
  show ¬readAll _ = .ok [⟨1, .deleteVector 7⟩, ⟨2, .deleteVector 8⟩]
  decide +kernel

end Wal

/-! ## A torn batch -/

/-- After a kill inside `append_batch` that let `n` bytes through, the log opens and
    `read_all` returns all of the batch or nothing of it. -/
def Wal.BatchWhole (w : Wal) (ops : List WalOp) (n : Nat) : Prop :=
  ∀ d ∈ WalHistory.killed w (.killInAppendBatch ops n),
    ∃ w' es, Wal.open d = .ok w' ∧ readAll w.dir.log = .ok es ∧
      (readAll w'.dir.log = .ok es ∨
        readAll w'.dir.log = .ok (es ++ numbered w.nextSeq ops))

/-- Where the first frame of a batch ends. -/
def firstFrame : List WalOp → Nat
  | [] => 0
  | op :: _ => frameHeader + (encodeOp op).length

/-- The bytes of a batch. -/
def batchBytes (ops : List WalOp) : Nat :=
  (ops.map fun op => frameHeader + (encodeOp op).length).sum

/-- The bytes of a batch do not depend on its numbers. -/
theorem length_frames_numbered (seq : Nat) (ops : List WalOp) :
    (frames (numbered seq ops)).length = batchBytes ops := by
  induction ops generalizing seq with
  | nil => rfl
  | cons op ops ih =>
    simp only [numbered, frames_cons, List.length_append, length_frame, ih, batchBytes,
      List.map_cons, List.sum_cons, frameHeader]

/-- A log that can be read can be opened. -/
private theorem open_of_readAll {d : WalDir} {es : List WalEntry} (h : readAll d.log = .ok es) :
    ∃ w', Wal.open d = .ok w' ∧ w'.dir = d := by
  refine ⟨⟨d, es.foldl (fun m e => max m e.seq) 0 + 1⟩, ?_, rfl⟩
  simp [Wal.open, maxSeq, h, bind, Except.bind, pure, Except.pure]

/-- What is read of a batch cut after `n` bytes. -/
private theorem readAll_cut (es : List WalEntry) (hfit : ∀ e ∈ es, e.Fits) (seq : Nat)
    {ops : List WalOp} (hbody : ∀ op ∈ ops, (encodeOp op).length ≤ u32Max)
    (hseq : seq + ops.length ≤ 2 ^ 64) (n : Nat) :
    ∃ k t, (frames (numbered seq ops)).take n = frames ((numbered seq ops).take k) ++ t ∧
      readAll (frames es ++ (frames (numbered seq ops)).take n) =
        .ok (es ++ (numbered seq ops).take k) := by
  have hnum := numbered_fits hbody hseq
  obtain ⟨k, t, htake, ht⟩ := take_frames (numbered seq ops) hnum n
  refine ⟨k, t, htake, ?_⟩
  rw [htake, ← List.append_assoc, ← frames_append]
  refine readAll_frames_append _ ht fun e he => ?_
  obtain he | he := List.mem_append.mp he
  · exact hfit e he
  · exact hnum e (List.mem_of_mem_take he)

/-- A batch is refused only for an entry that is too long. -/
private theorem batchFrames_error {seq : Nat} {ops : List WalOp} {err : StoreError}
    (h : Wal.batchFrames seq ops = .error err) : ∃ op ∈ ops, u32Max < (encodeOp op).length := by
  induction ops generalizing seq err with
  | nil => cases h
  | cons op ops ih =>
    by_cases hbig : u32Max < (encodeOp op).length
    · exact ⟨op, List.mem_cons_self, hbig⟩
    · simp only [Wal.batchFrames, if_neg hbig] at h
      cases hrec : Wal.batchFrames (seq + 1) ops with
      | error err' =>
        obtain ⟨op', hop', hlt⟩ := ih hrec
        exact ⟨op', List.mem_cons_of_mem _ hop', hlt⟩
      | ok rest =>
        simp only [hrec, bind, Except.bind] at h
        cases h

/-- The first frame is read exactly if it lies in front of the cut, and all frames are read
    exactly if all of them do. -/
private theorem take_numbered_iff {es : List WalEntry} (hfit : ∀ e ∈ es, e.Fits) {seq : Nat}
    {ops : List WalOp} (hbody : ∀ op ∈ ops, (encodeOp op).length ≤ u32Max)
    (hseq : seq + ops.length ≤ 2 ^ 64) {n k : Nat}
    (hread : readAll (frames es ++ (frames (numbered seq ops)).take n) =
      .ok (es ++ (numbered seq ops).take k)) :
    ((numbered seq ops).take k = [] ↔ ops = [] ∨ n < firstFrame ops) ∧
      ((numbered seq ops).take k = numbered seq ops ↔ batchBytes ops ≤ n) := by
  have hnum := numbered_fits hbody hseq
  constructor
  · cases ops with
    | nil => simp [numbered]
    | cons op ops =>
      simp only [numbered, frames_cons] at hread hnum ⊢
      have hlen : (frame ⟨seq, op⟩).length = firstFrame (op :: ops) := by
        rw [length_frame, firstFrame, frameHeader]
      have hself : WalEntry.Fits ⟨seq, op⟩ := hnum _ List.mem_cons_self
      constructor
      · intro hnil
        refine Or.inr (Nat.lt_of_not_le fun hle => ?_)
        -- the first frame is whole, so it is read
        rw [hnil, List.append_nil, List.take_append, List.take_of_length_le (by omega)] at hread
        obtain ⟨k', -, -, hmore⟩ := readAll_cut (es ++ [⟨seq, op⟩])
          (by simpa using fun e he => he.elim (hfit e) (fun h => h ▸ hself)) (seq + 1)
          (fun op' hop' => hbody op' (List.mem_cons_of_mem _ hop'))
          (by simp only [List.length_cons] at hseq; omega) (n - (frame ⟨seq, op⟩).length)
        rw [frames_append, frames_cons, List.append_assoc] at hmore
        simp only [frames, List.flatMap_nil, List.append_nil] at hmore hread
        rw [hread] at hmore
        have hlength := congrArg List.length (Except.ok.inj hmore)
        simp at hlength
      · -- the first frame is torn, so nothing of the batch is read
        rintro (hnil | hlt)
        · cases hnil
        · rw [List.take_append_of_le_length (by omega)] at hread
          have htorn := readAll_frames_append es ⟨⟨seq, op⟩, n, hself, by omega, rfl⟩ hfit
          rw [hread, Except.ok.injEq] at htorn
          simpa using htorn
  · constructor
    · -- the whole batch was read, so all its bytes are there
      intro hall
      rw [hall] at hread
      obtain ⟨t, heq, -⟩ := frames_of_readAll hread
      have hlength := congrArg List.length heq
      rw [frames_append] at hlength
      simp only [List.length_append, List.length_take, length_frames_numbered] at hlength
      omega
    · -- all the bytes are there, so the whole batch is read
      intro hle
      rw [List.take_of_length_le (by rw [length_frames_numbered]; exact hle), ← frames_append,
        readAll_frames _ (by
          intro e he
          exact (List.mem_append.mp he).elim (hfit e) (hnum e)), Except.ok.injEq] at hread
      exact (List.append_cancel_left hread).symm

/-- On a log of whole frames, a cut batch is read whole or not at all exactly if the cut
    lies inside its first frame or behind its last one, or if the batch is refused. -/
theorem batchWhole_iff (w : Wal) (es : List WalEntry) (hlog : w.dir.log = frames es)
    (hfit : ∀ e ∈ es, e.Fits) (ops : List WalOp) (hseq : w.nextSeq + ops.length ≤ 2 ^ 64)
    (n : Nat) :
    w.BatchWhole ops n ↔
      (∃ op ∈ ops, u32Max < (encodeOp op).length) ∨ n < firstFrame ops ∨ batchBytes ops ≤ n := by
  have hold : readAll w.dir.log = .ok es := by rw [hlog, readAll_frames es hfit]
  cases hbuf : Wal.batchFrames w.nextSeq ops with
  | error err =>
    -- the oversized body is found before anything is written
    have hkill : WalHistory.killed w (.killInAppendBatch ops n) = some w.dir := by
      simp only [WalHistory.killed, hbuf]
    refine iff_of_true ?_ (Or.inl ?_)
    · intro d hd
      obtain rfl := Option.some.inj (hkill.symm.trans hd)
      obtain ⟨w', hw, hdir⟩ := open_of_readAll hold
      exact ⟨w', es, hw, hold, Or.inl (hdir ▸ hold)⟩
    · exact batchFrames_error hbuf
  | ok buf =>
    obtain ⟨hbody, rfl⟩ := batchFrames_ok hbuf
    have hkill : WalHistory.killed w (.killInAppendBatch ops n) = some { w.dir with
        log := frames es ++ (frames (numbered w.nextSeq ops)).take n } := by
      simp only [WalHistory.killed, hbuf, hlog]
    -- the cut leaves the first `k` frames and perhaps a torn one
    obtain ⟨k, t, -, hread⟩ := readAll_cut es hfit _ hbody hseq n
    obtain ⟨hfirst, hlast⟩ := take_numbered_iff hfit hbody hseq hread
    have hnone : ¬∃ op ∈ ops, u32Max < (encodeOp op).length := by
      rintro ⟨op, hop, hlt⟩
      have := hbody op hop
      omega
    -- the restart shows those frames behind the old ones
    have hwhole : w.BatchWhole ops n ↔ (numbered w.nextSeq ops).take k = [] ∨
        (numbered w.nextSeq ops).take k = numbered w.nextSeq ops := by
      unfold Wal.BatchWhole
      rw [hkill]
      simp only [Option.mem_some_iff, forall_eq']
      obtain ⟨w', hw, hdir⟩ := open_of_readAll (d := { w.dir with
        log := frames es ++ (frames (numbered w.nextSeq ops)).take n }) hread
      constructor
      · rintro ⟨w'', es', hw'', hes', hcases⟩
        obtain rfl := Except.ok.inj (hw.symm.trans hw'')
        obtain rfl := Except.ok.inj (hold.symm.trans hes')
        rw [hdir, hread] at hcases
        simpa using hcases
      · intro hcases
        refine ⟨w', es, hw, hold, ?_⟩
        rw [hdir, hread]
        simpa using hcases
    rw [hwhole, hfirst, hlast]
    -- an empty batch has no bytes
    have hempty : ops = [] → batchBytes ops ≤ n := by
      rintro rfl
      exact Nat.zero_le n
    rw [iff_false_intro hnone, false_or, or_assoc]
    exact or_iff_right_of_imp fun hnil => Or.inr (hempty hnil)

theorem batchWhole_of_cut_in_first_frame :
    (⟨⟨frames [⟨1, .deleteVector 7⟩], none⟩, 2⟩ : Wal).BatchWhole
      [.deleteVector 8, .deleteVector 9] 20 :=
  (batchWhole_iff _ [⟨1, .deleteVector 7⟩] rfl (by simpa using ⟨by decide, by decide⟩)
    [.deleteVector 8, .deleteVector 9] (by decide) 20).mpr (Or.inr (Or.inl (by decide)))

/-- A cut on the boundary between two frames of a batch leaves half of it. -/
theorem half_batch_after_kill :
    let d : WalDir := ⟨frame ⟨1, .deleteVector 8⟩, none⟩
    WalHistory.killed ⟨⟨[], none⟩, 1⟩ (.killInAppendBatch [.deleteVector 8, .deleteVector 9] 21) =
        some d ∧ Wal.open d = .ok ⟨d, 2⟩ ∧ readAll d.log = .ok [⟨1, .deleteVector 8⟩] ∧
      ¬(⟨⟨[], none⟩, 1⟩ : Wal).BatchWhole [.deleteVector 8, .deleteVector 9] 21 := by
  intro d
  have hkill : WalHistory.killed ⟨⟨[], none⟩, 1⟩
      (.killInAppendBatch [.deleteVector 8, .deleteVector 9] 21) = some d := by rfl
  have hopen : Wal.open d = .ok ⟨d, 2⟩ := by rfl
  have hread : readAll d.log = .ok [⟨1, .deleteVector 8⟩] := by decide
  refine ⟨hkill, hopen, hread, fun hwhole => ?_⟩
  obtain ⟨w', es, hw, hold, hcases⟩ := hwhole d hkill
  obtain rfl := Except.ok.inj (hopen.symm.trans hw)
  obtain rfl : [] = es := Except.ok.inj hold
  rw [hread] at hcases
  exact absurd hcases (by decide)

end FusionStore
