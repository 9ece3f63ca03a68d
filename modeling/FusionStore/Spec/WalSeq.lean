import FusionStore.ForStd.Run
import FusionStore.Native.Wal
import FusionStore.Spec.WalCodecCorrect

/-!
# Sequence numbers across kills

`Wal::open` rebuilds `next_seq` from what is left in `wal.log`, while the
`applied_seq` that recovery filters with lives in `checkpoint.marker`.  This file
models every history of one WAL directory — appends, batches, checkpoints, and
kills at any byte of a write followed by `Wal::open` — and settles when the
numbers handed out stay above the marker and above each other.

A checkpoint empties the log.  If the process is killed before the next append,
numbering restarts at `1` below the marker, and recovery drops what is logged
from then on (`seqLaw_fails_after_checkpoint_kill`).  A kill inside a write leaves
torn bytes that later appends are written behind, where no reader finds them.
`seqLaw_of_guarded` shows that these two are the only ways.
-/

namespace FusionStore

/-! ## Histories of one WAL directory -/

/-- What one WAL directory goes through.  The `kill` events cut a call short and
    reopen the log: `killInAppend op n` after `n` bytes of the frame reached the
    file, `killInCheckpoint none` between the marker and the truncation, and
    `killInCheckpoint (some n)` after the truncating open and `n` rewritten bytes. -/
inductive WalEvent where
  | append (op : WalOp)
  | appendBatch (ops : List WalOp)
  | checkpoint
  | reopen
  | killInAppend (op : WalOp) (n : Nat)
  | killInAppendBatch (ops : List WalOp) (n : Nat)
  | killInCheckpoint (written : Option Nat)
  deriving DecidableEq

/-- One number handed out, with the `applied_seq` on disk at that moment. -/
structure Assigned where
  seq : Nat
  appliedSeq : Nat
  deriving DecidableEq

/-- A history in progress.  `wal` is `none` once `Wal::open` has failed;
    `assigned` (newest first) and `sinceCheckpoint` are ghost records of the
    numbers returned by appends, ever and since the last marker. -/
structure WalHistory where
  dir : WalDir
  wal : Option Wal
  assigned : List Assigned
  sinceCheckpoint : List Nat

namespace WalHistory

/-- A fresh directory, opened. -/
def init : WalHistory where
  dir := ⟨[], none⟩
  wal := some ⟨⟨[], none⟩, 1⟩
  assigned := []
  sinceCheckpoint := []

/-- The process died leaving `d`, and `Wal::open` runs on it. -/
def restart (h : WalHistory) (d : WalDir) (since : List Nat) : WalHistory where
  dir := d
  wal := (Wal.open d).toOption
  assigned := h.assigned
  sinceCheckpoint := since

/-- The call returned with the open log `w`. -/
def proceed (h : WalHistory) (w : Wal) (seqs : List Nat) : WalHistory where
  dir := w.dir
  wal := some w
  assigned := seqs.reverse.map (fun seq => ⟨seq, h.dir.appliedSeq⟩) ++ h.assigned
  sinceCheckpoint := seqs ++ h.sinceCheckpoint

/-- The marker of a checkpoint by `w`. -/
def marked (w : Wal) : WalDir :=
  (w.writeMarker (Wal.checkpointMarker (w.nextSeq - 1))).dir

/-- The directory a kill leaves behind, for the events that kill. -/
def killed (w : Wal) : WalEvent → Option WalDir
  | .reopen => some w.dir
  | .killInAppend op n =>
    if (encodeOp op).length > u32Max then some w.dir
    else some { w.dir with log := w.dir.log ++ (frame ⟨w.nextSeq, op⟩).take n }
  | .killInAppendBatch ops n =>
    match Wal.batchFrames w.nextSeq ops with
    | .error _ => some w.dir
    | .ok buf => some { w.dir with log := w.dir.log ++ buf.take n }
  | .killInCheckpoint none => some (marked w)
  | .killInCheckpoint (some n) =>
    match Wal.truncateKeep w (w.nextSeq - 1) with
    | .ok (some keep) => some { marked w with log := (frames keep).take n }
    | _ => some (marked w)
  | _ => none

/-- One event; without an open log only `reopen` does something.  A call that returns an error
    changes nothing: appends check before they write, and a checkpoint fails only at a log
    that cannot be read, where the marker it has written by then is left out here. -/
def step (h : WalHistory) (ev : WalEvent) : WalHistory :=
  match h.wal with
  | none =>
    match ev with
    | .reopen => h.restart h.dir h.sinceCheckpoint
    | _ => h
  | some w =>
    match ev with
    | .append op =>
      match w.append op with
      | .ok (seq, w') => h.proceed w' [seq]
      | .error _ => h
    | .appendBatch ops =>
      match w.appendBatch ops with
      | .ok (first, w') => h.proceed w' (List.range' first ops.length)
      | .error _ => h
    | .checkpoint =>
      match w.checkpoint with
      | .ok w' => { h with dir := w'.dir, wal := some w', sinceCheckpoint := [] }
      | .error _ => h
    | .killInCheckpoint n =>
      match killed w (.killInCheckpoint n) with
      | some d => h.restart d []
      | none => h
    | ev =>
      match killed w ev with
      | some d => h.restart d h.sinceCheckpoint
      | none => h

end WalHistory

/-- The law: every number handed out was above the marker then on disk and above
    all numbers handed out before, and recovery's filter keeps everything logged
    since the last checkpoint. -/
structure SeqLaw (h : WalHistory) : Prop where
  above_marker : ∀ a ∈ h.assigned, a.appliedSeq < a.seq
  increasing : h.assigned.Pairwise fun later earlier => earlier.seq < later.seq
  replayed : ∀ seq ∈ h.sinceCheckpoint,
    ∃ es, h.dir.pending = .ok es ∧ ∃ e ∈ es, e.seq = seq

/-! ## The condition -/

/-- The file ends on a frame boundary: no torn bytes behind the last entry. -/
def endsOnFrame (log : Bytes) : Bool :=
  match readAll log with
  | .ok es => frames es == log
  | .error _ => false

/-- The file holds at least one complete entry. -/
def holdsEntry (log : Bytes) : Bool :=
  match readAll log with
  | .ok es => !es.isEmpty
  | .error _ => false

/-- How many frames an event writes. -/
def WalEvent.frames : WalEvent → Nat
  | .append _ | .killInAppend _ _ => 1
  | .appendBatch ops | .killInAppendBatch ops _ => ops.length
  | _ => 0

/-- The steps that are safe: frames are written behind a complete frame and with
    numbers below `2^64`, and `Wal::open` after a kill finds an entry in the log
    unless no number was handed out yet. -/
def WalHistory.SafeStep (h : WalHistory) (ev : WalEvent) : Prop :=
  match h.wal with
  | none => False
  | some w =>
    (0 < ev.frames → endsOnFrame w.dir.log = true ∧ w.nextSeq + ev.frames ≤ 2 ^ 64) ∧
    ∀ d ∈ WalHistory.killed w ev, holdsEntry d.log = true ∨ w.nextSeq = 1

instance (h : WalHistory) (ev : WalEvent) : Decidable (h.SafeStep ev) :=
  match hw : h.wal with
  | none => .isFalse (by simp only [WalHistory.SafeStep, hw, not_false_eq_true])
  | some w =>
    decidable_of_iff ((0 < ev.frames → endsOnFrame w.dir.log = true ∧
        w.nextSeq + ev.frames ≤ 2 ^ 64) ∧
        ∀ d ∈ WalHistory.killed w ev, holdsEntry d.log = true ∨ w.nextSeq = 1)
      (by simp only [WalHistory.SafeStep, hw])

/-! ## The invariant of safe histories -/

/-- The largest sequence number of a list of entries, `0` if it is empty. -/
def lastSeq (es : List WalEntry) : Nat := es.foldl (fun m e => max m e.seq) 0

/-- The last number after one more entry. -/
theorem lastSeq_append (es : List WalEntry) (e : WalEntry) :
    lastSeq (es ++ [e]) = max (lastSeq es) e.seq := by
  simp only [lastSeq, List.foldl_append, List.foldl_cons, List.foldl_nil]

/-- The log of a safe history: complete entries `es`, numbered upwards to
    `next - 1`, and possibly a torn tail. -/
structure LogInv (log : Bytes) (next : Nat) (es : List WalEntry) : Prop where
  bytes : ∃ t, log = frames es ++ t ∧ TornTail t
  fits : ∀ e ∈ es, e.Fits
  bounds : ∀ e ∈ es, 0 < e.seq ∧ e.seq < next
  last : es ≠ [] → lastSeq es + 1 = next

namespace LogInv

variable {log : Bytes} {next : Nat} {es : List WalEntry}

/-- The log is read as its entries. -/
theorem readAll_eq (h : LogInv log next es) : readAll log = .ok es := by
  obtain ⟨t, rfl, ht⟩ := h.bytes
  exact readAll_frames_append es ht h.fits

/-- A log holds an entry exactly when it is not empty. -/
theorem holdsEntry_iff (h : LogInv log next es) : holdsEntry log = true ↔ es ≠ [] := by
  simp [holdsEntry, h.readAll_eq]

/-- Reopening a log that still holds an entry (or never handed out a number)
    resumes the numbering. -/
theorem open_eq (h : LogInv log next es) (marker : Option CheckpointMarker)
    (hsafe : es ≠ [] ∨ next = 1) :
    Wal.open ⟨log, marker⟩ = .ok ⟨⟨log, marker⟩, next⟩ := by
  have hnext : lastSeq es + 1 = next := by
    by_cases hes : es = []
    · subst hes
      rcases hsafe with hh | hh
      · exact absurd rfl hh
      · rw [hh]; rfl
    · exact h.last hes
  have hmax : maxSeq log = .ok (lastSeq es) := by
    simp only [maxSeq, h.readAll_eq, bind, Except.bind, pure, Except.pure, lastSeq]
  simp only [Wal.open, hmax, bind, Except.bind, hnext]

/-- A log that ends on a frame boundary has no torn tail. -/
theorem eq_frames (h : LogInv log next es) (hend : endsOnFrame log = true) :
    log = frames es := by
  simp only [endsOnFrame, h.readAll_eq, beq_iff_eq] at hend
  exact hend.symm

/-- A torn write behind a complete log. -/
theorem torn (h : LogInv (frames es) next es) {t : Bytes} (ht : TornTail t) :
    LogInv (frames es ++ t) next es :=
  ⟨⟨t, rfl, ht⟩, h.fits, h.bounds, h.last⟩

/-- Writing one frame behind a complete log. -/
theorem snoc (h : LogInv (frames es) next es) (hpos : 0 < next) (op : WalOp)
    (hfit : WalEntry.Fits ⟨next, op⟩) :
    LogInv (frames (es ++ [⟨next, op⟩])) (next + 1) (es ++ [⟨next, op⟩]) where
  bytes := ⟨[], (List.append_nil _).symm, TornTail.nil⟩
  fits := by
    intro e he
    rcases List.mem_append.mp he with he | he
    · exact h.fits e he
    · rw [List.mem_singleton.mp he]; exact hfit
  bounds := by
    intro e he
    rcases List.mem_append.mp he with he | he
    · have := h.bounds e he; omega
    · rw [List.mem_singleton.mp he]; exact ⟨hpos, Nat.lt_succ_self _⟩
  last := by
    intro _
    have hle : lastSeq es ≤ next := by
      by_cases hes : es = []
      · subst hes; exact Nat.zero_le _
      · have := h.last hes; omega
    rw [lastSeq_append, Nat.max_eq_right hle]

end LogInv

/-- A batch as the entries it is logged as. -/
def numbered (seq : Nat) : List WalOp → List WalEntry
  | [] => []
  | op :: ops => ⟨seq, op⟩ :: numbered (seq + 1) ops

/-- The first entries of a batch are the batch of its first operations. -/
theorem take_numbered (seq : Nat) (ops : List WalOp) (k : Nat) :
    (numbered seq ops).take k = numbered seq (ops.take k) := by
  induction ops generalizing seq k with
  | nil => simp only [numbered, List.take_nil]
  | cons op ops ih =>
    cases k with
    | zero => rfl
    | succ k => simp only [numbered, List.take_succ_cons, ih]

/-- A batch takes consecutive numbers. -/
theorem map_seq_numbered (seq : Nat) (ops : List WalOp) :
    (numbered seq ops).map WalEntry.seq = List.range' seq ops.length := by
  induction ops generalizing seq with
  | nil => rfl
  | cons op ops ih =>
    simp only [numbered, List.map_cons, ih, List.length_cons, List.range'_succ]

/-- The entries of a batch fit their frames. -/
theorem numbered_fits {seq : Nat} {ops : List WalOp}
    (hbody : ∀ op ∈ ops, (encodeOp op).length ≤ u32Max) (hseq : seq + ops.length ≤ 2 ^ 64) :
    ∀ e ∈ numbered seq ops, e.Fits := by
  induction ops generalizing seq with
  | nil => simp [numbered]
  | cons op ops ih =>
    intro e he
    simp only [List.length_cons] at hseq
    rcases List.mem_cons.mp he with rfl | he
    · exact ⟨by dsimp only; omega, hbody op List.mem_cons_self⟩
    · exact ih (fun op hop => hbody op (List.mem_cons_of_mem _ hop)) (by omega) e he

/-- `batchFrames` succeeds exactly on operations that fit, with their frames. -/
theorem batchFrames_ok {seq : Nat} {ops : List WalOp} {buf : Bytes}
    (h : Wal.batchFrames seq ops = .ok buf) :
    (∀ op ∈ ops, (encodeOp op).length ≤ u32Max) ∧ buf = frames (numbered seq ops) := by
  induction ops generalizing seq buf with
  | nil =>
    simp only [Wal.batchFrames, Except.ok.injEq] at h
    exact ⟨by simp, h ▸ rfl⟩
  | cons op ops ih =>
    simp only [Wal.batchFrames] at h
    -- an operation too long for its length field refuses the batch
    split at h
    · exact nomatch h
    · rename_i hop
      cases hrec : Wal.batchFrames (seq + 1) ops with
      | error e => simp only [hrec, bind, Except.bind] at h; exact nomatch h
      | ok rest =>
        simp only [hrec, bind, Except.bind, Except.ok.injEq] at h
        obtain ⟨hops, rfl⟩ := ih hrec
        refine ⟨?_, by rw [← h, numbered, frames_cons]⟩
        intro op' hop'
        rcases List.mem_cons.mp hop' with rfl | hop'
        · omega
        · exact hops op' hop'

namespace LogInv

variable {log : Bytes} {next : Nat} {es : List WalEntry}

/-- Writing the frames of a batch behind a complete log. -/
theorem write (h : LogInv (frames es) next es) (hpos : 0 < next) (ops : List WalOp)
    (hbody : ∀ op ∈ ops, (encodeOp op).length ≤ u32Max) (hseq : next + ops.length ≤ 2 ^ 64) :
    LogInv (frames (es ++ numbered next ops)) (next + ops.length) (es ++ numbered next ops) := by
  induction ops generalizing next es with
  | nil => simpa only [numbered, List.append_nil, List.length_nil, Nat.add_zero] using h
  | cons op ops ih =>
    simp only [List.length_cons] at hseq ⊢
    have hone := h.snoc hpos op ⟨by dsimp only; omega, hbody op List.mem_cons_self⟩
    have hrec := ih hone (Nat.succ_pos _) (fun o ho => hbody o (List.mem_cons_of_mem _ ho))
      (by omega)
    rw [List.append_assoc, List.singleton_append] at hrec
    rw [show next + (ops.length + 1) = next + 1 + ops.length from by omega]
    exact hrec

/-- The first `n` bytes of a batch: some of its entries, then a torn tail. -/
theorem writeTorn (h : LogInv (frames es) next es) (hpos : 0 < next) {ops : List WalOp}
    (hbody : ∀ op ∈ ops, (encodeOp op).length ≤ u32Max) (hseq : next + ops.length ≤ 2 ^ 64)
    (n : Nat) :
    ∃ pre, LogInv (frames es ++ (frames (numbered next ops)).take n) (next + pre.length)
      (es ++ numbered next pre) := by
  obtain ⟨k, t, hcut, ht⟩ := take_frames _ (numbered_fits hbody hseq) n
  refine ⟨ops.take k, ?_⟩
  have hw := h.write hpos (ops.take k) (fun o ho => hbody o (List.mem_of_mem_take ho))
    (by rw [List.length_take]; omega)
  rw [hcut, take_numbered, ← List.append_assoc, ← frames_append]
  exact hw.torn ht

end LogInv

/-- What every safe history keeps: an open log whose numbering is ahead of the
    marker and of every number handed out. -/
structure HistInv (h : WalHistory) (w : Wal) (es : List WalEntry) : Prop where
  wal_eq : h.wal = some w
  dir_eq : h.dir = w.dir
  log : LogInv w.dir.log w.nextSeq es
  applied_lt : w.dir.appliedSeq < w.nextSeq
  assigned_lt : ∀ a ∈ h.assigned, a.seq < w.nextSeq
  since : ∀ seq ∈ h.sinceCheckpoint, w.dir.appliedSeq < seq ∧ ∃ e ∈ es, e.seq = seq
  above_marker : ∀ a ∈ h.assigned, a.appliedSeq < a.seq
  increasing : h.assigned.Pairwise fun later earlier => earlier.seq < later.seq

/-- A new log has handed out no number. -/
theorem HistInv.init : HistInv WalHistory.init ⟨⟨[], none⟩, 1⟩ [] where
  wal_eq := rfl
  dir_eq := rfl
  log := ⟨⟨[], rfl, TornTail.nil⟩, by simp, by simp, by simp⟩
  applied_lt := by decide
  assigned_lt := by simp [WalHistory.init]
  since := by simp [WalHistory.init]
  above_marker := by simp [WalHistory.init]
  increasing := List.Pairwise.nil

namespace HistInv

variable {h : WalHistory} {w : Wal} {es : List WalEntry}

/-- Numbers begin at one. -/
theorem nextSeq_pos (hi : HistInv h w es) : 0 < w.nextSeq :=
  Nat.lt_of_le_of_lt (Nat.zero_le _) hi.applied_lt

/-- The law holds in every state that keeps the invariant. -/
theorem seqLaw (hi : HistInv h w es) : SeqLaw h where
  above_marker := hi.above_marker
  increasing := hi.increasing
  replayed := by
    intro seq hseq
    obtain ⟨hlt, e, he, rfl⟩ := hi.since seq hseq
    refine ⟨es.filter fun e => w.dir.appliedSeq < e.seq, ?_, e, ?_, rfl⟩
    · rw [hi.dir_eq]
      simp only [WalDir.pending, hi.log.readAll_eq, bind, Except.bind, pure, Except.pure]
    · simp only [List.mem_filter, decide_eq_true_eq]
      exact ⟨he, hlt⟩

/-- Opening a directory whose log is still ahead of the old one. -/
theorem restart (hi : HistInv h w es) {d : WalDir} {next : Nat} {fs : List WalEntry}
    {since : List Nat} (hlog : LogInv d.log next fs) (hle : w.nextSeq ≤ next)
    (happ : d.appliedSeq < next) (hsafe : holdsEntry d.log = true ∨ next = 1)
    (hsince : ∀ seq ∈ since, d.appliedSeq < seq ∧ ∃ e ∈ fs, e.seq = seq) :
    HistInv (h.restart d since) ⟨d, next⟩ fs where
  wal_eq := by
    have hopen := hlog.open_eq d.marker (by rwa [hlog.holdsEntry_iff] at hsafe)
    simp only [WalHistory.restart, hopen, Except.toOption]
  dir_eq := rfl
  log := hlog
  applied_lt := happ
  assigned_lt := fun a ha => Nat.lt_of_lt_of_le (hi.assigned_lt a ha) hle
  since := hsince
  above_marker := hi.above_marker
  increasing := hi.increasing

/-- A call that logged `ops` behind the complete log. -/
theorem logged (hi : HistInv h w es) (ops : List WalOp)
    (hend : endsOnFrame w.dir.log = true) (hseq : w.nextSeq + ops.length ≤ 2 ^ 64)
    (hbody : ∀ op ∈ ops, (encodeOp op).length ≤ u32Max) :
    HistInv (h.proceed ⟨{ w.dir with log := w.dir.log ++ frames (numbered w.nextSeq ops) },
        w.nextSeq + ops.length⟩ (List.range' w.nextSeq ops.length))
      ⟨{ w.dir with log := w.dir.log ++ frames (numbered w.nextSeq ops) },
        w.nextSeq + ops.length⟩ (es ++ numbered w.nextSeq ops) where
  wal_eq := rfl
  dir_eq := rfl
  -- the file ends on a frame, so the new frames can be read behind it
  log := by
    have hlog := hi.log
    have heq := hlog.eq_frames hend
    rw [heq] at hlog
    have hw := hlog.write hi.nextSeq_pos ops hbody hseq
    simp only [heq]
    rwa [frames_append] at hw
  applied_lt := Nat.lt_of_lt_of_le hi.applied_lt (Nat.le_add_right _ _)
  -- the numbers handed out now are those of the batch
  assigned_lt := by
    intro a ha
    simp only [WalHistory.proceed, List.mem_append, List.mem_map, List.mem_reverse,
      List.mem_range'_1] at ha
    rcases ha with ⟨seq, hseq, rfl⟩ | ha
    · exact hseq.2
    · exact Nat.lt_of_lt_of_le (hi.assigned_lt a ha) (Nat.le_add_right _ _)
  -- new numbers have their entry in the new frames, older ones in the old
  since := by
    intro seq hmem
    simp only [WalHistory.proceed, List.mem_append] at hmem
    rcases hmem with hmem | hmem
    · have hnew := hmem
      rw [← map_seq_numbered] at hnew
      obtain ⟨e, he, hes⟩ := List.mem_map.mp hnew
      have hge := (List.mem_range'_1.mp hmem).1
      exact ⟨Nat.lt_of_lt_of_le hi.applied_lt hge, e, List.mem_append_right _ he, hes⟩
    · obtain ⟨hlt, e, he, hes⟩ := hi.since seq hmem
      exact ⟨hlt, e, List.mem_append_left _ he, hes⟩
  above_marker := by
    intro a ha
    simp only [WalHistory.proceed, List.mem_append, List.mem_map, List.mem_reverse,
      List.mem_range'_1] at ha
    rcases ha with ⟨seq, hseq, rfl⟩ | ha
    · rw [hi.dir_eq]; exact Nat.lt_of_lt_of_le hi.applied_lt hseq.1
    · exact hi.above_marker a ha
  increasing := by
    simp only [WalHistory.proceed]
    refine List.pairwise_append.mpr ⟨?_, hi.increasing, ?_⟩
    · rw [List.pairwise_map, List.pairwise_reverse]
      exact List.pairwise_lt_range'
    · intro a ha b hb
      simp only [List.mem_map, List.mem_reverse, List.mem_range'_1] at ha
      obtain ⟨seq, hseq, rfl⟩ := ha
      exact Nat.lt_of_lt_of_le (hi.assigned_lt b hb) hseq.1

/-- Logging `op` alone is logging the batch of one. -/
private theorem frames_singleton (seq : Nat) (op : WalOp) :
    frames (numbered seq [op]) = frame ⟨seq, op⟩ := by
  simp only [numbered, frames, List.flatMap_cons, List.flatMap_nil, List.append_nil]

/-- The log a kill inside a write leaves, when the write started behind a
    complete frame. -/
private theorem torn_write (hi : HistInv h w es) (ops : List WalOp)
    (hend : endsOnFrame w.dir.log = true) (hseq : w.nextSeq + ops.length ≤ 2 ^ 64)
    (hbody : ∀ op ∈ ops, (encodeOp op).length ≤ u32Max) (n : Nat)
    (hsafe : holdsEntry (w.dir.log ++ (frames (numbered w.nextSeq ops)).take n) = true ∨
      w.nextSeq = 1) :
    ∃ w' es', HistInv (h.restart
      { w.dir with log := w.dir.log ++ (frames (numbered w.nextSeq ops)).take n }
      h.sinceCheckpoint) w' es' := by
  have hlog := hi.log
  have heq := hlog.eq_frames hend
  rw [heq] at hlog
  obtain ⟨pre, hpre⟩ := hlog.writeTorn hi.nextSeq_pos hbody hseq n
  rw [← heq] at hpre
  refine ⟨_, _, hi.restart hpre (Nat.le_add_right _ _)
    (Nat.lt_of_lt_of_le hi.applied_lt (Nat.le_add_right _ _)) ?_ ?_⟩
  · rcases hsafe with hs | hs
    · exact Or.inl hs
    · cases pre with
      | nil => exact Or.inr hs
      | cons op pre => exact Or.inl (hpre.holdsEntry_iff.mpr (by simp [numbered]))
  · intro seq hmem
    obtain ⟨hlt, e, he, hes⟩ := hi.since seq hmem
    exact ⟨hlt, e, List.mem_append_left _ he, hes⟩

/-- A checkpoint: the marker moves to `next_seq - 1` and the log loses its
    entries, all of which are below it. -/
private theorem truncateKeep_eq (hi : HistInv h w es) :
    w.truncateKeep (w.nextSeq - 1) = .ok (if es = [] then none else some []) := by
  have hkeep : (es.filter fun e => w.nextSeq - 1 < e.seq) = [] := by
    rw [List.filter_eq_nil_iff]
    intro e he
    have := hi.log.bounds e he
    simp only [decide_eq_true_eq]
    omega
  simp only [Wal.truncateKeep, hi.log.readAll_eq, bind, Except.bind, hkeep, List.isEmpty_nil,
    Bool.true_and, List.isEmpty_iff]
  split <;> rfl

/-- The marker is below the next number. -/
private theorem applied_marked (hi : HistInv h w es) :
    (WalHistory.marked w).appliedSeq < w.nextSeq := by
  have hpos := hi.nextSeq_pos
  have happ : (WalHistory.marked w).appliedSeq = w.nextSeq - 1 := rfl
  omega

/-- A checkpoint goes through and keeps the invariant. -/
private theorem checkpointed (hi : HistInv h w es) :
    ∃ w' es', w.checkpoint = .ok w' ∧ HistInv { h with
      dir := w'.dir, wal := some w', sinceCheckpoint := [] } w' es' := by
  have htk : (w.writeMarker (Wal.checkpointMarker (w.nextSeq - 1))).truncateKeep (w.nextSeq - 1) =
      .ok (if es = [] then none else some []) := hi.truncateKeep_eq
  by_cases hes : es = []
  · refine ⟨w.writeMarker (Wal.checkpointMarker (w.nextSeq - 1)), es, ?_, rfl, rfl, hi.log,
      hi.applied_marked, hi.assigned_lt, by simp, hi.above_marker, hi.increasing⟩
    simp only [Wal.checkpoint, Wal.truncateTo, htk, if_pos hes, bind, Except.bind]
  · have hlog : LogInv (frames []) w.nextSeq [] :=
      ⟨⟨[], rfl, TornTail.nil⟩, by simp, by simp, by simp⟩
    refine ⟨⟨{ WalHistory.marked w with log := frames [] }, w.nextSeq⟩, [], ?_, rfl, rfl, hlog,
      hi.applied_marked, hi.assigned_lt, by simp, hi.above_marker, hi.increasing⟩
    simp only [Wal.checkpoint, Wal.truncateTo, htk, if_neg hes, bind, Except.bind]
    rfl

/-- A kill inside the checkpoint, with the marker already in place. -/
private theorem marked_restart (hi : HistInv h w es)
    (hsafe : holdsEntry w.dir.log = true ∨ w.nextSeq = 1) :
    HistInv (h.restart (WalHistory.marked w) []) ⟨WalHistory.marked w, w.nextSeq⟩ es :=
  hi.restart hi.log (Nat.le_refl _) hi.applied_marked hsafe (by simp)

/-- One safe step keeps the invariant. -/
theorem step (hi : HistInv h w es) {ev : WalEvent} (hsafe : h.SafeStep ev) :
    ∃ w' es', HistInv (h.step ev) w' es' := by
  simp only [WalHistory.SafeStep, hi.wal_eq] at hsafe
  obtain ⟨hframes, hkill⟩ := hsafe
  cases ev with
  | append op =>
    obtain ⟨hend, hseq⟩ := hframes Nat.one_pos
    -- an oversized operation is refused before anything is written
    by_cases hbig : (encodeOp op).length > u32Max
    · simp only [WalHistory.step, hi.wal_eq, Wal.append, if_pos hbig]
      exact ⟨w, es, hi⟩
    · have hl := hi.logged [op] hend hseq (by simpa using hbig)
      rw [frames_singleton] at hl
      simp only [WalHistory.step, hi.wal_eq, Wal.append, if_neg hbig]
      exact ⟨_, _, hl⟩
  -- an empty batch writes nothing
  | appendBatch ops =>
    by_cases hnil : ops = []
    · subst hnil
      simp only [WalHistory.step, hi.wal_eq, Wal.appendBatch, List.isEmpty_nil, if_true]
      exact ⟨w, es, ⟨rfl, rfl, hi.log, hi.applied_lt, hi.assigned_lt, hi.since, hi.above_marker,
        hi.increasing⟩⟩
    · obtain ⟨hend, hseq⟩ := hframes (List.length_pos_iff.mpr hnil)
      have hne : ops.isEmpty = false := by simpa using hnil
      cases hb : Wal.batchFrames w.nextSeq ops with
      | error e =>
        simp only [WalHistory.step, hi.wal_eq, Wal.appendBatch, hne, hb, bind, Except.bind]
        exact ⟨w, es, hi⟩
      | ok buf =>
        obtain ⟨hbody, rfl⟩ := batchFrames_ok hb
        simp only [WalHistory.step, hi.wal_eq, Wal.appendBatch, hne, hb, bind, Except.bind]
        exact ⟨_, _, hi.logged ops hend hseq hbody⟩
  -- a checkpoint writes the marker and keeps the later entries
  | checkpoint =>
    obtain ⟨w', es', hck, hi'⟩ := hi.checkpointed
    simp only [WalHistory.step, hi.wal_eq, hck]
    exact ⟨w', es', hi'⟩
  | reopen =>
    -- a clean reopen is a kill that tears nothing
    have hs := hkill w.dir rfl
    simp only [WalHistory.step, hi.wal_eq, WalHistory.killed]
    exact ⟨_, _, hi.restart hi.log (Nat.le_refl _) hi.applied_lt hs hi.since⟩
  -- killed within the frame
  | killInAppend op n =>
    obtain ⟨hend, hseq⟩ := hframes Nat.one_pos
    by_cases hbig : (encodeOp op).length > u32Max
    · have hs := hkill w.dir (by simp only [WalHistory.killed, if_pos hbig, Option.mem_some_iff])
      simp only [WalHistory.step, hi.wal_eq, WalHistory.killed, if_pos hbig]
      exact ⟨_, _, hi.restart hi.log (Nat.le_refl _) hi.applied_lt hs hi.since⟩
    · have hs := hkill _ (by simp only [WalHistory.killed, if_neg hbig]; rfl)
      rw [← frames_singleton] at hs
      simp only [WalHistory.step, hi.wal_eq, WalHistory.killed, if_neg hbig, ← frames_singleton]
      exact hi.torn_write [op] hend hseq (by simpa using hbig) n hs
  -- killed within one of the frames
  | killInAppendBatch ops n =>
    cases hb : Wal.batchFrames w.nextSeq ops with
    | error e =>
      have hs := hkill w.dir (by simp only [WalHistory.killed, hb, Option.mem_some_iff])
      simp only [WalHistory.step, hi.wal_eq, WalHistory.killed, hb]
      exact ⟨_, _, hi.restart hi.log (Nat.le_refl _) hi.applied_lt hs hi.since⟩
    | ok buf =>
      have hs := hkill _ (by simp only [WalHistory.killed, hb]; rfl)
      simp only [WalHistory.step, hi.wal_eq, WalHistory.killed, hb]
      obtain ⟨hbody, rfl⟩ := batchFrames_ok hb
      by_cases hnil : ops = []
      · subst hnil
        simp only [numbered, frames, List.flatMap_nil, List.take_nil, List.append_nil] at hs ⊢
        exact ⟨_, _, hi.restart hi.log (Nat.le_refl _) hi.applied_lt hs hi.since⟩
      · obtain ⟨hend, hseq⟩ := hframes (List.length_pos_iff.mpr hnil)
        exact hi.torn_write ops hend hseq hbody n hs
  -- killed before or within the rewrite
  | killInCheckpoint written =>
    cases written with
    | none =>
      have hs := hkill _ rfl
      simp only [WalHistory.step, hi.wal_eq, WalHistory.killed]
      exact ⟨_, _, hi.marked_restart hs⟩
    | some n =>
      have htk := hi.truncateKeep_eq
      by_cases hes : es = []
      · have hs := hkill (WalHistory.marked w)
          (by simp only [WalHistory.killed, htk, if_pos hes, Option.mem_some_iff])
        simp only [WalHistory.step, hi.wal_eq, WalHistory.killed, htk, if_pos hes]
        exact ⟨_, _, hi.marked_restart hs⟩
      · -- the truncating open left an empty file although numbers were handed out
        have hs := hkill _ (by simp only [WalHistory.killed, htk, if_neg hes]; rfl)
        obtain ⟨e, he⟩ := List.exists_mem_of_ne_nil es hes
        have hb := hi.log.bounds e he
        rcases hs with hs | hs
        · simp only [frames, List.flatMap_nil, List.take_nil] at hs
          exact absurd hs (by decide)
        · omega

end HistInv

/-- In every history whose steps are safe, the numbers handed out stay above the
    marker and above each other, and recovery replays everything logged since the
    last checkpoint. -/
theorem seqLaw_of_guarded (evs : List WalEvent)
    (hsafe : Run.Guarded WalHistory.step WalHistory.SafeStep WalHistory.init evs) :
    SeqLaw (Run.exec WalHistory.step WalHistory.init evs) := by
  have hinv : ∃ w es, HistInv (Run.exec WalHistory.step WalHistory.init evs) w es := by
    refine hsafe.invariant (fun h => ∃ w es, HistInv h w es) ?_ ⟨_, _, HistInv.init⟩
    rintro h ev ⟨w, es, hi⟩ hs
    exact hi.step hs
  obtain ⟨w, es, hi⟩ := hinv
  exact hi.seqLaw

/-- Two appends, a kill inside the third, a restart and a checkpoint. -/
theorem seqLaw_of_torn_append :
    SeqLaw (Run.exec WalHistory.step WalHistory.init
      [.append (.deleteVector 7), .append (.deleteVector 8), .killInAppend (.deleteVector 9) 5,
        .checkpoint, .append (.deleteVector 9), .reopen]) :=
  seqLaw_of_guarded _ (by decide +kernel)

/-- One append, a checkpoint and a kill: the next entry gets number `1` again,
    which is not above the marker's `applied_seq = 1`. -/
theorem seqLaw_fails_after_checkpoint_kill :
    ¬ SeqLaw (Run.exec WalHistory.step WalHistory.init
      [.append (.deleteVector 7), .checkpoint, .reopen, .append (.deleteVector 8)]) := by
  intro h
  have habove := h.above_marker ⟨1, 1⟩ (by decide +kernel)
  exact absurd habove (by decide)

end FusionStore
