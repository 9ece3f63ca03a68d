import FusionStore.Native.WalCodec

/-!
# The write-ahead log

`Wal` of `mem/wal.rs` over the bytes of `wal.log` and the decoded contents of
`checkpoint.marker`.  The marker is written by tmp + fsync + rename, so it is
always a complete record.
-/

namespace FusionStore

/-- The files of one WAL directory. -/
structure WalDir where
  log : Bytes
  marker : Option CheckpointMarker

/-- `Wal`: an open log.  Every write goes through to the file. -/
structure Wal where
  dir : WalDir
  nextSeq : Nat

/-- The `applied_seq` recovery starts from: that of the marker, or `0` without one. -/
def WalDir.appliedSeq (d : WalDir) : Nat :=
  match d.marker with
  | some m => m.appliedSeq
  | none => 0

namespace Wal

/-- `Wal::open`: numbering resumes from what is left in the log. -/
def «open» (d : WalDir) : Except StoreError Wal := do
  let m ← maxSeq d.log
  .ok ⟨d, m + 1⟩

/-- `Wal::append`. -/
def append (w : Wal) (op : WalOp) : Except StoreError (Nat × Wal) :=
  let seq := w.nextSeq
  let body := encodeOp op
  if body.length > u32Max then .error (.valueTooLarge body.length)
  else
    let log := w.dir.log ++ frame ⟨seq, op⟩
    .ok (seq, ⟨{ w.dir with log := log }, seq + 1⟩)

/-- The frames of one batch, numbered from `seq`; the first oversized body stops it. -/
def batchFrames (seq : Nat) : List WalOp → Except StoreError Bytes
  | [] => .ok []
  | op :: ops => do
    let body := encodeOp op
    if body.length > u32Max then .error (.valueTooLarge body.length)
    else .ok (frame ⟨seq, op⟩ ++ (← batchFrames (seq + 1) ops))

/-- `Wal::append_batch`: returns the first sequence number.  An error leaves the log as it was,
    here by the type: the frames are built before the single write. -/
def appendBatch (w : Wal) (ops : List WalOp) : Except StoreError (Nat × Wal) := do
  if ops.isEmpty then .ok (w.nextSeq, w)
  else
    let buf ← batchFrames w.nextSeq ops
    let log := w.dir.log ++ buf
    .ok (w.nextSeq, ⟨{ w.dir with log := log }, w.nextSeq + ops.length⟩)

/-- `Wal::write_marker`. -/
def writeMarker (w : Wal) (marker : CheckpointMarker) : Wal :=
  { w with dir := { w.dir with marker := some marker } }

/-- The entries `truncate_to` keeps, and whether it rewrites the file at all. -/
def truncateKeep (w : Wal) (appliedSeq : Nat) : Except StoreError (Option (List WalEntry)) := do
  let entries ← readAll w.dir.log
  let keep := entries.filter fun e => appliedSeq < e.seq
  if keep.isEmpty && entries.isEmpty then .ok none else .ok (some keep)

/-- `Wal::truncate_to`. -/
def truncateTo (w : Wal) (appliedSeq : Nat) : Except StoreError Wal := do
  match ← truncateKeep w appliedSeq with
  | none => .ok w
  | some keep => .ok { w with dir := { w.dir with log := frames keep } }

/-- The marker `Engine::checkpoint` writes for `applied_seq = next_seq - 1`. -/
def checkpointMarker (appliedSeq : Nat) : CheckpointMarker where
  appliedSeq := appliedSeq
  checkpointSeq := appliedSeq
  graphSnapshot := some s!"nsw_checkpoint_{appliedSeq}.mmap"

/-- The WAL part of `Engine::checkpoint`: the marker first, then the truncation.  If that fails
    the source leaves the new marker on disk; here only the error is given. -/
def checkpoint (w : Wal) : Except StoreError Wal :=
  (w.writeMarker (checkpointMarker (w.nextSeq - 1))).truncateTo (w.nextSeq - 1)

end Wal

/-- The entries `recover_inner` replays: those with `seq > applied_seq`. -/
def WalDir.pending (d : WalDir) : Except StoreError (List WalEntry) := do
  return (← readAll d.log).filter fun e => d.appliedSeq < e.seq

end FusionStore
