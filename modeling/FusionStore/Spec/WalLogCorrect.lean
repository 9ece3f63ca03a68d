import FusionStore.Native.WalLog
import FusionStore.Spec.WalCodecCorrect

/-!
# The log of entries

`WalLog` computes what `Wal` computes on the bytes of its frames (first section), and
how appends, truncations and reopening change the entries that recovery would replay
(second section).

## Key results

- `open_toWal`, `append_toWal`, `appendBatch_toWal`, `truncateTo_toWal`, `pending_toWalDir`
- `pending_append`, `pending_checkpoint`, `pending_recovered`
-/

namespace FusionStore

/-! ### Refinement of the byte level -/

namespace LogDir

/-- The bytes of a WAL directory. -/
def toWalDir (d : LogDir) : WalDir := ⟨frames d.entries, d.marker⟩

/-- Every entry has a number and a body that its frame can carry. -/
def Fits (d : LogDir) : Prop := ∀ e ∈ d.entries, e.Fits

/-- The marker is not encoded. -/
theorem appliedSeq_toWalDir (d : LogDir) : d.toWalDir.appliedSeq = d.appliedSeq := rfl

/-- What recovery finds in the bytes are the entries behind the marker. -/
theorem pending_toWalDir {d : LogDir} (h : d.Fits) : d.toWalDir.pending = .ok d.pending := by
  unfold WalDir.pending
  rw [show d.toWalDir.log = frames d.entries from rfl, readAll_frames _ h]
  rfl

end LogDir

namespace WalLog

/-- An open log with its bytes. -/
def toWal (w : WalLog) : Wal := ⟨w.dir.toWalDir, w.nextSeq⟩

/-- An open of the bytes is an open of the entries. -/
theorem open_toWal {d : LogDir} (h : d.Fits) : Wal.open d.toWalDir = .ok («open» d).toWal := by
  unfold Wal.open maxSeq
  rw [show d.toWalDir.log = frames d.entries from rfl, readAll_frames _ h]
  rfl

/-- An append of bytes is an append of an entry. -/
theorem append_toWal (w : WalLog) (op : WalOp) :
    w.toWal.append op = (w.append op).map fun r => (r.1, r.2.toWal) := by
  have hframe : frames (w.dir.entries ++ [⟨w.nextSeq, op⟩]) =
      frames w.dir.entries ++ frame ⟨w.nextSeq, op⟩ := by
    rw [frames_append]
    exact congrArg _ (List.append_nil _)
  by_cases hlen : (encodeOp op).length > u32Max
  · simp only [Wal.append, append, if_pos hlen]
    rfl
  · simp only [Wal.append, append, if_neg hlen, Except.map, toWal, LogDir.toWalDir, hframe]

/-- A batch is framed as a whole or refused for its first entry that is too long. -/
private theorem batchFrames_eq (seq : Nat) (ops : List WalOp) :
    Wal.batchFrames seq ops = match ops.find? fun op => (encodeOp op).length > u32Max with
      | some op => .error (.valueTooLarge (encodeOp op).length)
      | none => .ok (frames (batchEntries seq ops)) := by
  induction ops generalizing seq with
  | nil => rfl
  | cons op ops ih =>
    unfold Wal.batchFrames
    by_cases hlen : (encodeOp op).length > u32Max
    · simp only [hlen, ↓reduceIte, List.find?_cons, decide_true]
    · simp only [hlen, ↓reduceIte, List.find?_cons, decide_false]
      rw [ih]
      cases ops.find? fun op => (encodeOp op).length > u32Max with
      | some op' => rfl
      | none => rfl

/-- Likewise a batch. -/
theorem appendBatch_toWal (w : WalLog) (ops : List WalOp) :
    w.toWal.appendBatch ops = (w.appendBatch ops).map fun r => (r.1, r.2.toWal) := by
  unfold Wal.appendBatch appendBatch
  cases ops with
  | nil =>
    simp only [List.isEmpty_nil, ↓reduceIte, List.find?_nil, batchEntries, List.append_nil,
      List.length_nil, Nat.add_zero]
    rfl
  | cons op ops =>
    rw [if_neg (by simp), batchFrames_eq]
    cases List.find? (fun op => (encodeOp op).length > u32Max) (op :: ops) with
    | some op' => rfl
    | none =>
      show Except.ok _ = Except.ok _
      simp only [toWal, LogDir.toWalDir, frames_append]

/-- Likewise the marker. -/
theorem writeMarker_toWal (w : WalLog) (marker : CheckpointMarker) :
    w.toWal.writeMarker marker = (w.writeMarker marker).toWal := rfl

/-- A truncation of the bytes keeps the frames of the entries that stay. -/
theorem truncateTo_toWal {w : WalLog} (h : w.dir.Fits) (appliedSeq : Nat) :
    w.toWal.truncateTo appliedSeq = .ok (w.truncateTo appliedSeq).toWal := by
  unfold Wal.truncateTo Wal.truncateKeep
  rw [show w.toWal.dir.log = frames w.dir.entries from rfl, readAll_frames _ h]
  simp only [bind, Except.bind]
  cases hent : w.dir.entries with
  | nil =>
    simp only [List.filter_nil, List.isEmpty_nil, Bool.and_self, ↓reduceIte]
    simp only [truncateTo, toWal, LogDir.toWalDir, hent, List.filter_nil]
  | cons e es =>
    rw [if_neg (by simp)]
    simp only [truncateTo, toWal, LogDir.toWalDir, hent]

end WalLog

/-! ### What recovery would replay -/

namespace LogDir

/-- Numbers start at one and grow along the log. -/
structure Inv (d : LogDir) : Prop where
  sorted : d.entries.Pairwise fun a b => a.seq < b.seq
  pos : ∀ e ∈ d.entries, 0 < e.seq

/-- The empty directory. -/
theorem inv_empty : LogDir.empty.Inv where
  sorted := .nil
  pos := by
    intro e h
    exact nomatch h

/-- The operations recovery would replay. -/
def pendingOps (d : LogDir) : List WalOp := d.pending.map WalEntry.op

/-- Nothing pending, nothing to replay. -/
theorem pendingOps_nil {d : LogDir} (h : d.pending = []) : d.pendingOps = [] := by
  unfold pendingOps
  rw [h]
  rfl

end LogDir

namespace WalLog

/-- The next number is above every number in the log. -/
structure Inv (w : WalLog) : Prop where
  dir : w.dir.Inv
  bound : ∀ e ∈ w.dir.entries, e.seq < w.nextSeq
  pos : 0 < w.nextSeq

/-- The running maximum of the sequence numbers bounds them all. -/
theorem le_foldl_max (es : List WalEntry) (m : Nat) :
    m ≤ es.foldl (fun m e => max m e.seq) m ∧
      ∀ e ∈ es, e.seq ≤ es.foldl (fun m e => max m e.seq) m := by
  induction es generalizing m with
  | nil =>
    refine ⟨Nat.le_refl _, ?_⟩
    intro e h
    exact nomatch h
  | cons a es ih =>
    obtain ⟨hm, he⟩ := ih (max m a.seq)
    refine ⟨Nat.le_trans (Nat.le_max_left _ _) hm, fun e hmem => ?_⟩
    rcases List.mem_cons.mp hmem with rfl | hmem
    · exact Nat.le_trans (Nat.le_max_right _ _) hm
    · exact he e hmem

/-- The next number is above all that are in use. -/
theorem inv_open {d : LogDir} (h : d.Inv) : («open» d).Inv where
  dir := h
  bound := fun e he => Nat.lt_succ_of_le ((le_foldl_max d.entries 0).2 e he)
  pos := Nat.succ_pos _

/-- What an append adds. -/
theorem append_ok {w w' : WalLog} {op : WalOp} {seq : Nat} (hr : w.append op = .ok (seq, w')) :
    w' = ⟨{ w.dir with entries := w.dir.entries ++ [⟨w.nextSeq, op⟩] }, w.nextSeq + 1⟩ := by
  unfold append at hr
  split at hr
  · exact nomatch hr
  · rw [Except.ok.injEq, Prod.mk.injEq] at hr
    exact hr.2.symm

/-- The new entry has the largest number. -/
theorem inv_append {w w' : WalLog} {op : WalOp} {seq : Nat} (h : w.Inv)
    (hr : w.append op = .ok (seq, w')) : w'.Inv := by
  rw [append_ok hr]
  refine ⟨⟨?_, ?_⟩, ?_, Nat.succ_pos _⟩
  · -- the new number is above all that were logged
    refine List.pairwise_append.mpr ⟨h.dir.sorted, List.pairwise_singleton _ _, ?_⟩
    intro a ha b hb
    rw [List.mem_singleton] at hb
    rw [hb]
    exact h.bound a ha
  · intro e he
    rcases List.mem_append.mp he with he | he
    · exact h.dir.pos e he
    · rw [List.mem_singleton] at he
      rw [he]
      exact h.pos
  · -- and below the next one
    intro e he
    show e.seq < w.nextSeq + 1
    rcases List.mem_append.mp he with he | he
    · have := h.bound e he
      omega
    · rw [List.mem_singleton] at he
      rw [he]
      exact Nat.lt_succ_self _

/-- Below the marker nothing is pending, so an entry that is not above it cannot hide
    one that is. -/
theorem pending_eq_nil {w : WalLog} (h : w.Inv) (hle : w.nextSeq ≤ w.dir.appliedSeq) :
    w.dir.pending = [] := by
  unfold LogDir.pending
  rw [List.filter_eq_nil_iff]
  intro e he hlt
  have hb := h.bound e he
  have hlt := of_decide_eq_true hlt
  omega

/-- It is pending unless the marker has passed its number. -/
theorem pending_append {w w' : WalLog} {op : WalOp} {seq : Nat}
    (hr : w.append op = .ok (seq, w')) :
    w'.dir.pendingOps =
      w.dir.pendingOps ++ if w.dir.appliedSeq < w.nextSeq then [op] else [] := by
  rw [append_ok hr]
  unfold LogDir.pendingOps LogDir.pending
  show List.map WalEntry.op (List.filter (fun e => w.dir.appliedSeq < e.seq)
    (w.dir.entries ++ [⟨w.nextSeq, op⟩])) = _
  rw [List.filter_append, List.map_append]
  congr 1
  by_cases hlt : w.dir.appliedSeq < w.nextSeq
  · simp only [List.filter_cons, hlt, decide_true, ↓reduceIte, List.filter_nil, List.map_cons,
      List.map_nil]
  · simp only [List.filter_cons, hlt, decide_false, Bool.false_eq_true, ↓reduceIte,
      List.filter_nil, List.map_nil]

/-- The entries of a batch are numbered in a row. -/
theorem mem_batchEntries {seq : Nat} {ops : List WalOp} {e : WalEntry}
    (h : e ∈ batchEntries seq ops) : seq ≤ e.seq ∧ e.seq < seq + ops.length ∧ e.op ∈ ops := by
  induction ops generalizing seq with
  | nil => exact nomatch h
  | cons op ops ih =>
    rcases List.mem_cons.mp h with rfl | h
    · exact ⟨Nat.le_refl _, by simp only [List.length_cons]; omega, List.mem_cons_self⟩
    · obtain ⟨hlo, hhi, hop⟩ := ih h
      refine ⟨by omega, ?_, List.mem_cons_of_mem _ hop⟩
      simp only [List.length_cons]
      omega

/-- In ascending order. -/
theorem sorted_batchEntries (seq : Nat) (ops : List WalOp) :
    (batchEntries seq ops).Pairwise fun a b => a.seq < b.seq := by
  induction ops generalizing seq with
  | nil => exact .nil
  | cons op ops ih =>
    refine List.pairwise_cons.mpr ⟨?_, ih (seq + 1)⟩
    intro e he
    exact (mem_batchEntries he).1

/-- And hold the operations given. -/
theorem map_op_batchEntries (seq : Nat) (ops : List WalOp) :
    (batchEntries seq ops).map WalEntry.op = ops := by
  induction ops generalizing seq with
  | nil => rfl
  | cons op ops ih => rw [batchEntries, List.map_cons, ih]

/-- What a batch adds. -/
theorem appendBatch_ok {w w' : WalLog} {ops : List WalOp} {seq : Nat}
    (hr : w.appendBatch ops = .ok (seq, w')) :
    w' = ⟨{ w.dir with entries := w.dir.entries ++ batchEntries w.nextSeq ops },
      w.nextSeq + ops.length⟩ := by
  unfold appendBatch at hr
  split at hr
  · exact nomatch hr
  · rw [Except.ok.injEq, Prod.mk.injEq] at hr
    exact hr.2.symm

/-- The invariant through a batch. -/
theorem inv_appendBatch {w w' : WalLog} {ops : List WalOp} {seq : Nat} (h : w.Inv)
    (hr : w.appendBatch ops = .ok (seq, w')) : w'.Inv := by
  have hpos := h.pos
  rw [appendBatch_ok hr]
  refine ⟨⟨?_, ?_⟩, ?_, ?_⟩
  · -- the batch is numbered on from the log
    refine List.pairwise_append.mpr ⟨h.dir.sorted, sorted_batchEntries _ _, ?_⟩
    intro a ha b hb
    exact Nat.lt_of_lt_of_le (h.bound a ha) (mem_batchEntries hb).1
  · intro e he
    rcases List.mem_append.mp he with he | he
    · exact h.dir.pos e he
    · have := (mem_batchEntries he).1
      omega
  · -- and ends below the next number
    intro e he
    show e.seq < w.nextSeq + ops.length
    rcases List.mem_append.mp he with he | he
    · have := h.bound e he
      omega
    · exact (mem_batchEntries he).2.1
  · show 0 < w.nextSeq + ops.length
    omega

/-- Where the numbers are above the marker, a batch is pending as a whole. -/
theorem pending_appendBatch {w w' : WalLog} {ops : List WalOp} {seq : Nat}
    (hr : w.appendBatch ops = .ok (seq, w')) (hlt : w.dir.appliedSeq < w.nextSeq) :
    w'.dir.pendingOps = w.dir.pendingOps ++ ops := by
  rw [appendBatch_ok hr]
  unfold LogDir.pendingOps LogDir.pending
  show List.map WalEntry.op (List.filter (fun e => w.dir.appliedSeq < e.seq)
    (w.dir.entries ++ batchEntries w.nextSeq ops)) = _
  rw [List.filter_append, List.map_append]
  congr 1
  rw [List.filter_eq_self.mpr, map_op_batchEntries]
  intro e he
  have := (mem_batchEntries he).1
  exact decide_eq_true (by omega)

/-- The invariant through a truncation. -/
theorem inv_truncateTo {w : WalLog} (h : w.Inv) (n : Nat) : (w.truncateTo n).Inv where
  dir := ⟨h.dir.sorted.filter _, fun e he => h.dir.pos e (List.mem_filter.mp he).1⟩
  bound := fun e he => h.bound e (List.mem_filter.mp he).1
  pos := h.pos

/-- The invariant through a marker. -/
theorem inv_writeMarker {w : WalLog} (h : w.Inv) (m : CheckpointMarker) : (w.writeMarker m).Inv :=
  ⟨⟨h.dir.sorted, h.dir.pos⟩, h.bound, h.pos⟩

/-- A checkpoint empties the log. -/
theorem entries_checkpoint {w : WalLog} (h : w.Inv) (m : CheckpointMarker) :
    ((w.writeMarker m).truncateTo (w.nextSeq - 1)).dir.entries = [] := by
  show w.dir.entries.filter _ = []
  rw [List.filter_eq_nil_iff]
  intro e he hlt
  have hb := h.bound e he
  have hlt := of_decide_eq_true hlt
  omega

/-- Truncating behind the last replayed entry leaves nothing pending. -/
theorem pending_recovered (w : WalLog) :
    (w.truncateTo (w.dir.pending.foldl (fun m x => max m x.seq) w.dir.appliedSeq)).dir.pending =
      [] := by
  unfold LogDir.pending
  show List.filter (fun e => w.dir.appliedSeq < e.seq) (List.filter _ w.dir.entries) = []
  rw [List.filter_filter, List.filter_eq_nil_iff]
  intro e he hboth
  rw [Bool.and_eq_true] at hboth
  have hlt := of_decide_eq_true hboth.1
  have hmax := of_decide_eq_true hboth.2
  have hmem : e ∈ w.dir.pending := List.mem_filter.mpr ⟨he, decide_eq_true hlt⟩
  have hle := (le_foldl_max w.dir.pending w.dir.appliedSeq).2 e hmem
  unfold LogDir.pending at hle
  omega

end WalLog

end FusionStore
