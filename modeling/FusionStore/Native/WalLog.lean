import FusionStore.Native.Wal

/-!
# The write-ahead log as a list of entries

What `Wal` does between kills, one level above its bytes: `wal.log` is the list of
the entries in it.  A kill between two calls leaves whole frames only, so this is
the log every call of the engine sees; `Spec.WalLogCorrect` shows that the byte
level computes the same.
-/

namespace FusionStore

/-- The entries of `wal.log` and the contents of `checkpoint.marker`. -/
structure LogDir where
  entries : List WalEntry
  marker : Option CheckpointMarker

namespace LogDir

/-- A WAL directory without files. -/
def empty : LogDir := ⟨[], none⟩

/-- The `applied_seq` recovery starts from: that of the marker, or `0` without one. -/
def appliedSeq (d : LogDir) : Nat :=
  match d.marker with
  | some m => m.appliedSeq
  | none => 0

/-- The entries recovery replays: those with `seq > applied_seq`. -/
def pending (d : LogDir) : List WalEntry := d.entries.filter fun e => d.appliedSeq < e.seq

end LogDir

/-- An open log. -/
structure WalLog where
  dir : LogDir
  nextSeq : Nat

namespace WalLog

/-- `Wal::open`. -/
def «open» (d : LogDir) : WalLog :=
  ⟨d, d.entries.foldl (fun m e => max m e.seq) 0 + 1⟩

/-- `Wal::append`. -/
def append (w : WalLog) (op : WalOp) : Except StoreError (Nat × WalLog) :=
  if (encodeOp op).length > u32Max then .error (.valueTooLarge (encodeOp op).length)
  else
    .ok (w.nextSeq,
      ⟨{ w.dir with entries := w.dir.entries ++ [⟨w.nextSeq, op⟩] }, w.nextSeq + 1⟩)

/-- The entries of one batch, numbered from `seq`. -/
def batchEntries (seq : Nat) : List WalOp → List WalEntry
  | [] => []
  | op :: ops => ⟨seq, op⟩ :: batchEntries (seq + 1) ops

/-- `Wal::append_batch`: the first oversized body rejects the whole batch. -/
def appendBatch (w : WalLog) (ops : List WalOp) : Except StoreError (Nat × WalLog) :=
  match ops.find? fun op => (encodeOp op).length > u32Max with
  | some op => .error (.valueTooLarge (encodeOp op).length)
  | none =>
    .ok (w.nextSeq,
      ⟨{ w.dir with entries := w.dir.entries ++ batchEntries w.nextSeq ops },
        w.nextSeq + ops.length⟩)

/-- `Wal::write_marker`. -/
def writeMarker (w : WalLog) (marker : CheckpointMarker) : WalLog :=
  { w with dir := { w.dir with marker := some marker } }

/-- `Wal::truncate_to`. -/
def truncateTo (w : WalLog) (appliedSeq : Nat) : WalLog :=
  { w with dir := { w.dir with entries := w.dir.entries.filter fun e => appliedSeq < e.seq } }

end WalLog

end FusionStore
